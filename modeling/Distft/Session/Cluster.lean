import Mathlib.Data.List.FinRange
import Distft.Session.Model

/-!
# A cluster of sessions

The sessions of `n` nodes, and the RPCs between them: a request goes to the node that serves the
endpoint and is handled there by the handlers of `Session`, which may send RPCs themselves. Operations
run one at a time. The transport may lose any message, and loses every message with a data field that
does not fit: a protocol buffer is below 2 GiB, which is also what an `int32` size can say.
-/

namespace Distft

/-- The transport under the RPCs: whether a request arrives, and whether a response does. -/
structure Transport where
  /-- The request arrives. -/
  carries : (m : Method) → m.Request → Bool
  /-- The response arrives. -/
  returns : (m : Method) → m.Response → Bool
  /-- The data of a store is below the limit of a message. -/
  limit_store : ∀ request, carries .store request = true → request.data.length < 2^31
  /-- A value that was found is below the limit of a message. -/
  limit_findValue : ∀ response, returns .findValue response = true → response.data.length < 2^31

/-- A transport that loses only the messages that are too long. -/
def Transport.lossless : Transport where
  carries
    | .store, request => decide (request.data.length < 2^31)
    | _, _ => true
  returns
    | .findValue, response => decide (response.data.length < 2^31)
    | _, _ => true
  limit_store _ h := of_decide_eq_true h
  limit_findValue _ h := of_decide_eq_true h

/-- The nodes of a cluster, and their clock. -/
structure Cluster (n : ℕ) where
  /-- The session of each node. -/
  nodes : Fin n → Session
  /-- The readings of the clock, in nanoseconds. -/
  clock : ℕ → Int64
  /-- How many readings were made. -/
  reads : ℕ

namespace Cluster

variable {n : ℕ}

/-- The `Net` of a node, given what RPCs do. -/
def netOf (deliver : (m : Method) → Bytes → m.Request → Cluster n → Option m.Response × Cluster n)
    (x : Fin n) : Net (Cluster n) where
  session c := c.nodes x
  withSession s c := { c with nodes := Function.update c.nodes x s }
  now c := ((c.clock c.reads).toInt, { c with reads := c.reads + 1 })
  rpc := deliver
  turns := 2

/-- An RPC in a cluster of which some nodes serve, where RPCs nest at most to a depth: the node that
serves the endpoint handles the request, and an exception in the handler is an answer with another
status than OK. -/
def deliverTo (serves : Fin n → Bool) (T : Transport) :
    ℕ → (m : Method) → Bytes → m.Request → Cluster n → Option m.Response × Cluster n
  | 0, _, _, _, c => (none, c)
  | depth + 1, m, endpoint, request, c =>
    match (List.finRange n).find? fun y =>
        serves y && (c.nodes y).router.selfPeer.endpoint == endpoint with
    | none => (none, c)
    | some y =>
      if T.carries m request then
        let r := (netOf (deliverTo serves T depth) y).handle m request c
        match r.result with
        | .ok response => (if T.returns m response then some response else none, r.state)
        | .error _ => (none, r.state)
      else (none, c)

/-- An RPC in a cluster of which all nodes serve. -/
def deliver (T : Transport) (depth : ℕ) :
    (m : Method) → Bytes → m.Request → Cluster n → Option m.Response × Cluster n :=
  deliverTo (fun _ => true) T depth

/-- An RPC leaves the cluster as it was, or as the handler of a node that serves leaves it. -/
theorem deliverTo_keeps {serves : Fin n → Bool} {T : Transport} {depth : ℕ} {m : Method}
    {endpoint : Bytes} {request : m.Request} {c : Cluster n} {I : Cluster n → Prop} (h : I c)
    (hhandle : ∀ y, serves y = true →
      I ((netOf (deliverTo serves T depth) y).handle m request c).state) :
    I (deliverTo serves T (depth + 1) m endpoint request c).2 := by
  unfold deliverTo
  split
  · exact h
  · next y hy =>
    have hfound := List.find?_some hy
    simp only [Bool.and_eq_true] at hfound
    have hafter := hhandle y hfound.1
    split_ifs
    · simp only []
      split
      · exact hafter
      · exact hafter
    · exact h

/-- The `Net` of a node in the cluster. -/
def node (T : Transport) (depth : ℕ) (x : Fin n) : Net (Cluster n) := netOf (deliver T depth) x

end Cluster

/-- The value that a node has for a key. -/
def valueAt {n : ℕ} (c : Cluster n) (x : Fin n) (key : Key) : Option Bytes :=
  ((c.nodes x).chunks.lookup key).map Chunk.data

/-- A forced `set` that a node issues. -/
structure SetOp (n : ℕ) where
  /-- The node. -/
  node : Fin n
  /-- The key. -/
  key : Key
  /-- The value. -/
  value : Bytes

/-- Forced sets, one after the other. -/
def setAll {n : ℕ} (T : Transport) (depth : ℕ) : List (SetOp n) → Op (Cluster n) Unit
  | [] => pure ()
  | op :: ops => do
    (Cluster.node T depth op.node).set op.key op.value true
    setAll T depth ops

/-- The value that was most recently set for a key, if any was. -/
def lastValue {n : ℕ} (ops : List (SetOp n)) (key : Key) : Option Bytes :=
  ops.foldl (fun value op => if op.key = key then some op.value else value) none

/-- An RPC of the run was answered with status OK; other events do not matter. -/
def Event.answered : Event → Bool
  | .rpc _ _ _ response => response.isSome
  | _ => true

end Distft
