import Distft.Session.Publish

/-!
# Messages with data

A `StoreRequest` and a `FindValueResponse` say the size of their data in a field of its own, and the
handler of `Store` and `find_value` believe it: they copy that many bytes from the data, whatever its
length. The seconds of a `StoreRequest` are turned into the clock's nanoseconds unchecked, too. So a
message is handled safely where it is `Consistent`, or where it is turned down before its data is
looked at (`payloadsSafe_iff`); the updates of peers around it stop at other faults
(`updateFaults_safe`). The handler of `FindValue` fills the field from the data itself.
-/

namespace Distft

open Exec

/-- The size is that of the data, and the time of publication fits the clock. -/
structure StoreRequest.Consistent (request : StoreRequest) : Prop where
  /-- `size`. -/
  size : request.size.toInt = request.data.length
  /-- `original_publish`. -/
  originalPublish : -2^63 ≤ request.originalPublish.toInt * 10^9 ∧
    request.originalPublish.toInt * 10^9 < 2^63

/-- The size is that of the data. -/
def FindValueResponse.Consistent (response : FindValueResponse) : Prop :=
  response.size.toInt = response.data.length

/-- A read outside the data, or an overflow. -/
def Fault.Unsafe (e : Fault) : Prop := e = .outOfBounds ∨ e = .overflow

/-- The updates of peers stop at other faults. -/
theorem updateFaults_safe : Net.UpdateFaults fun e => ¬e.Unsafe :=
  ⟨by simp [Fault.Unsafe], by simp [Fault.Unsafe], by simp [Fault.Unsafe]⟩

namespace Environment

variable {W : Type} (env : Environment W)

/-- The handler of `Store` handles a request safely: it does not read outside the data, nor
overflow, and if it returns, what it stored has exactly the request's data. -/
def StoresSafely (w : W) (request : StoreRequest) : Prop :=
  (∀ e, (env.handleStore request w).result = .error e → ¬e.Unsafe) ∧
    ∀ response, (env.handleStore request w).result = .ok response →
      ∃ key, Key.ofBytes request.chunkKey = some key ∧
        ((env.session (env.handleStore request w).state).chunks.lookup key).map Chunk.data =
          some request.data

/-- The handler of `Store` comes to look at the data: the update of the sender returns, and the key of
the chunk can be read. -/
def LooksAtData (w : W) (request : StoreRequest) : Prop :=
  (∃ receiver, (env.rpcHandlerPrelims request.sender w).result = .ok receiver) ∧
    (Key.ofBytes request.chunkKey).isSome

/-- What the handler of `Store` does once it looks at the data. -/
def storeData (receiver : RpcPeer) (key : Key) (request : StoreRequest) : Op W StoreResponse := do
  let originalPublish ← Net.ofSeconds request.originalPublish
  let data ← Net.copyData request.data request.size
  let lastPublished ← env.clock
  Net.lock .chunks
  env.modify fun s => ((), { s with
    chunks := s.chunks.insert key ⟨false, key, data, lastPublished, originalPublish⟩ })
  Net.unlock .chunks
  return ⟨receiver⟩

/-- Of a message with another size that can be copied, something else than its data is stored. -/
theorem storeData_run (receiver : RpcPeer) (key : Key) (request : StoreRequest) (w : W) :
    ((env.storeData receiver key request w).result = .error .overflow ∧ ¬request.Consistent) ∨
    ((env.storeData receiver key request w).result = .error .outOfBounds ∧ ¬request.Consistent) ∨
    ((env.storeData receiver key request w).result = .ok ⟨receiver⟩ ∧
      ((env.session (env.storeData receiver key request w).state).chunks.lookup key).map Chunk.data =
        some ((request.data ++ [0]).take request.size.toInt.toNat) ∧
      (request.Consistent ↔
        (request.data ++ [0]).take request.size.toInt.toNat = request.data)) := by
  unfold storeData Net.ofSeconds
  split_ifs with hrange
  · unfold Net.copyData
    split_ifs with hsize
    · refine .inr (.inr ⟨rfl, ?_, ?_⟩)
      · show ((env.session (env.withSession _ _)).chunks.lookup key).map Chunk.data = _
        rw [env.session_withSession, AList.lookup_insert]
        rfl
      · rw [Net.take_terminated_eq_iff]
        constructor
        · intro h
          have := h.size
          omega
        · intro h
          exact ⟨by omega, hrange⟩
    · refine .inr (.inl ⟨rfl, fun h => hsize ?_⟩)
      rw [h.size]
      omega
  · exact .inl ⟨rfl, fun h => hrange h.originalPublish⟩

/-- The handler of `Store` handles a request safely if and only if it is consistent, or turned down
before its data is looked at. -/
theorem storesSafely_iff (w : W) (request : StoreRequest) :
    env.StoresSafely w request ↔ (env.LooksAtData w request → request.Consistent) := by
  unfold StoresSafely LooksAtData
  cases hreceiver : (env.rpcHandlerPrelims request.sender w).result with
  | error e =>
    have hrun : (env.handleStore request w).result = .error e := by
      rw [Net.handleStore, Exec.bind_of_error hreceiver]
    rw [hrun]
    refine iff_of_true ⟨fun e' he => ?_, fun _ h => by simp at h⟩ fun h => by simp at h
    obtain rfl := Except.error.inj he
    exact (Net.steady_rpcHandlerPrelims Net.covers_true.ofUpdates updateFaults_safe
      env.toNet.frame_true.update fun _ _ => trivial).faults w e trivial hreceiver
  | ok receiver =>
    cases hkey : Key.ofBytes request.chunkKey with
    | none =>
      have hrun : (env.handleStore request w).result = .error .invalidArgument := by
        rw [Net.handleStore, Exec.bind_of_ok hreceiver, Net.toKey, hkey]
        rfl
      rw [hrun]
      refine iff_of_true ⟨fun e' he => ?_, fun _ h => by simp at h⟩ fun h => by simp at h
      obtain rfl := Except.error.inj he
      simp [Fault.Unsafe]
    | some key =>
      have hrun : (env.handleStore request w).result = (env.storeData receiver key request
            (env.rpcHandlerPrelims request.sender w).state).result ∧
          (env.handleStore request w).state = (env.storeData receiver key request
            (env.rpcHandlerPrelims request.sender w).state).state := by
        rw [Net.handleStore, Exec.bind_of_ok hreceiver, Net.toKey, hkey]
        exact ⟨rfl, rfl⟩
      rw [hrun.1, hrun.2]
      have hlooks : (∃ receiver', (.ok receiver : Except Fault RpcPeer) = .ok receiver') ∧
        (some key).isSome := ⟨⟨receiver, rfl⟩, rfl⟩
      rcases env.storeData_run receiver key request
        (env.rpcHandlerPrelims request.sender w).state with ⟨hr, hnot⟩ | ⟨hr, hnot⟩ | ⟨hr, hdata, hiff⟩
      · rw [hr]
        exact iff_of_false (fun h => h.1 _ rfl (.inr rfl)) fun h => hnot (h hlooks)
      · rw [hr]
        exact iff_of_false (fun h => h.1 _ rfl (.inl rfl)) fun h => hnot (h hlooks)
      · rw [hr]
        constructor
        · intro h _
          obtain ⟨key', hkey', hkept⟩ := h.2 _ rfl
          obtain rfl := Option.some.inj hkey'
          exact hiff.2 (Option.some.inj (hdata.symm.trans hkept))
        · intro h
          refine ⟨fun _ he => by simp at he, fun _ _ => ⟨key, rfl, ?_⟩⟩
          rw [hdata, hiff.1 (h hlooks)]

/-- `find_value` handles the responses that it may get safely where they say that the value was
found: it does not read outside the data, and if it returns, it returns exactly the response's data.
-/
def FindsSafely (w : W) (peer : Peer) (searchKey : Key) : Prop :=
  ∀ response w', env.rpc .findValue peer.endpoint
      ⟨localToRpcPeer (env.session w).router.selfPeer, searchKey.toBytes⟩ w = (some response, w') →
    response.foundValue = true →
    (∀ e, (env.findValue peer searchKey w).result = .error e → ¬e.Unsafe) ∧
      ∀ found, (env.findValue peer searchKey w).result = .ok found →
        found = some (.inl response.data)

/-- What `find_value` does with a response in which the value was found. -/
def foundData (response : FindValueResponse) : Op W (Option (Bytes ⊕ List Peer)) := do
  env.rpcCallerEpilogue response.receiver
  let data ← Net.copyData response.data response.size
  return some (.inl data)

/-- `find_value` goes on in the world that the RPC leaves. -/
theorem findValue_run {w w' : W} {peer : Peer} {searchKey : Key} {response : FindValueResponse}
    (hrpc : env.rpc .findValue peer.endpoint
      ⟨localToRpcPeer (env.session w).router.selfPeer, searchKey.toBytes⟩ w = (some response, w'))
    (hfound : response.foundValue = true) :
    (env.findValue peer searchKey w).result = (env.foundData response w').result := by
  have hsender : env.rpcCallerPrelims w =
      ⟨[], w, .ok (localToRpcPeer (env.session w).router.selfPeer)⟩ := rfl
  have hcall : ∀ request : FindValueRequest,
      env.rpc .findValue peer.endpoint request w = (some response, w') →
      env.call .findValue peer request w =
        ⟨[.rpc .findValue peer request (some response)], w', .ok (some response)⟩ := by
    intro request hrpc
    show (⟨[.rpc .findValue peer request (env.rpc .findValue peer.endpoint request w).1],
      (env.rpc .findValue peer.endpoint request w).2,
      .ok (env.rpc .findValue peer.endpoint request w).1⟩ : Run Event Fault W _) = _
    rw [hrpc]
  rw [Net.findValue, Exec.bind_run hsender, Exec.bind_run (hcall _ hrpc)]
  simp only [hfound, if_true]
  rfl

/-- `find_value` handles a found value safely if and only if it is consistent, or the update of the
receiver does not return. -/
theorem findsSafely_iff (w : W) (peer : Peer) (searchKey : Key) :
    env.FindsSafely w peer searchKey ↔
      ∀ response w', env.rpc .findValue peer.endpoint
          ⟨localToRpcPeer (env.session w).router.selfPeer, searchKey.toBytes⟩ w = (some response, w') →
        response.foundValue = true →
        (env.rpcCallerEpilogue response.receiver w').result = .ok () → response.Consistent := by
  refine forall_congr' fun response => forall_congr' fun w' => imp_congr_right fun hrpc =>
    imp_congr_right fun hfound => ?_
  rw [env.findValue_run hrpc hfound]
  cases hupdate : (env.rpcCallerEpilogue response.receiver w').result with
  | error e =>
    rw [foundData, Exec.bind_of_error hupdate]
    refine iff_of_true ⟨fun e' he => ?_, fun _ h => by simp at h⟩ fun h => by simp at h
    obtain rfl := Except.error.inj he
    exact (Net.steady_rpcCallerEpilogue Net.covers_true.ofUpdates updateFaults_safe
      env.toNet.frame_true.update fun _ _ => trivial).faults w' e trivial hupdate
  | ok u =>
    rw [foundData, Exec.bind_of_ok hupdate]
    unfold Net.copyData FindValueResponse.Consistent
    split_ifs with hsize
    · have htake : (response.data ++ [0]).take response.size.toInt.toNat = response.data ↔
          response.size.toInt = response.data.length := by
        rw [Net.take_terminated_eq_iff]
        omega
      constructor
      · intro h _
        exact htake.1 (Sum.inl.inj (Option.some.inj (h.2 _ rfl)))
      · intro h
        refine ⟨fun _ he => by simp at he, fun found hret => ?_⟩
        rw [← Except.ok.inj hret, htake.2 (h rfl)]
    · refine iff_of_false (fun h => h.1 _ rfl (.inl rfl)) fun h => hsize ?_
      rw [h rfl]
      omega

/-- Messages with data are handled safely if and only if they are consistent, or turned down before
their data is looked at. -/
theorem payloadsSafe_iff (w : W) (request : StoreRequest) (peer : Peer) (searchKey : Key) :
    (env.StoresSafely w request ↔ (env.LooksAtData w request → request.Consistent)) ∧
      (env.FindsSafely w peer searchKey ↔
        ∀ response w', env.rpc .findValue peer.endpoint
            ⟨localToRpcPeer (env.session w).router.selfPeer, searchKey.toBytes⟩ w =
              (some response, w') →
          response.foundValue = true →
          (env.rpcCallerEpilogue response.receiver w').result = .ok () → response.Consistent) :=
  ⟨env.storesSafely_iff w request, env.findsSafely_iff w peer searchKey⟩

/-- A request with one byte of data that says three makes the handler read beyond the data, and the
NUL behind it. -/
theorem not_storesSafely :
    ¬∀ (env : Environment Session) (s : Session) (request : StoreRequest),
      env.StoresSafely s request := by
  intro h
  let s : Session := ⟨Router.new 0 ⟨4, [0]⟩ ⟨1, [1]⟩, ∅, 0⟩
  let request : StoreRequest := ⟨⟨[48], [2]⟩, [49], [7], 3, 0⟩
  have hread : (((deaf 0).handleStore request s).result.map fun _ => ()) = .error .outOfBounds := by
    decide +kernel
  cases hr : ((deaf 0).handleStore request s).result with
  | ok response =>
    rw [hr] at hread
    exact nomatch hread
  | error e =>
    rw [hr] at hread
    exact (h (deaf 0) s request).1 e hr (.inl (Except.error.inj hread))

end Environment

end Distft
