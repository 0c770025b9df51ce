import Distft.Utils

/-!
# The messages of the DHT service

The messages of `src/dht/dht.proto`, and the service's methods with the types of their requests and
responses. A key travels as the string of its bits, and a field that a receiver does not trust, a
size or a time, has the integer type of the wire.
-/

namespace Distft

/-- `dht::Peer`. -/
structure RpcPeer where
  /-- The string of the key's bits. -/
  key : Bytes
  /-- The endpoint. -/
  endpoint : Bytes
  deriving DecidableEq, Repr

/-- `FindNodeRequest`. -/
structure FindNodeRequest where
  /-- Who asks. -/
  sender : RpcPeer
  /-- The string of the search key's bits. -/
  searchKey : Bytes
  deriving DecidableEq

/-- `FindNodeResponse`. -/
structure FindNodeResponse where
  /-- Who answers. -/
  receiver : RpcPeer
  /-- The peers that it knows close to the key. -/
  closestPeers : List RpcPeer

/-- `FindValueRequest`. -/
structure FindValueRequest where
  /-- Who asks. -/
  sender : RpcPeer
  /-- The string of the search key's bits. -/
  searchKey : Bytes
  deriving DecidableEq

/-- `FindValueResponse`. -/
structure FindValueResponse where
  /-- Who answers. -/
  receiver : RpcPeer
  /-- Whether the value is in `data`. -/
  foundValue : Bool
  /-- The value. -/
  data : Bytes
  /-- The size of the value. -/
  size : Int32
  /-- The peers that it knows close to the key, where it has no value. -/
  closestPeers : List RpcPeer

/-- `StoreInitRequest`. -/
structure StoreInitRequest where
  /-- Who asks. -/
  sender : RpcPeer
  /-- The string of the chunk key's bits. -/
  chunkKey : Bytes
  deriving DecidableEq

/-- `StoreInitResponse`. -/
structure StoreInitResponse where
  /-- Who answers. -/
  receiver : RpcPeer
  /-- Whether it has no chunk with the key yet. -/
  continueStore : Bool

/-- `StoreRequest`. -/
structure StoreRequest where
  /-- Who asks. -/
  sender : RpcPeer
  /-- The string of the chunk key's bits. -/
  chunkKey : Bytes
  /-- The chunk's data. -/
  data : Bytes
  /-- The size of the data. -/
  size : Int32
  /-- When the chunk was first published, in seconds since the epoch. -/
  originalPublish : Int64
  deriving DecidableEq

/-- `StoreResponse`. -/
structure StoreResponse where
  /-- Who answers. -/
  receiver : RpcPeer

/-- `PingRequest`. -/
structure PingRequest where
  /-- Who asks. -/
  sender : RpcPeer
  deriving DecidableEq

/-- `PingResponse`. -/
structure PingResponse where
  /-- Who answers. -/
  receiver : RpcPeer

/-- The methods of `DHTService`. -/
inductive Method where
  /-- `FindNode`. -/
  | findNode
  /-- `FindValue`. -/
  | findValue
  /-- `StoreInit`. -/
  | storeInit
  /-- `Store`. -/
  | store
  /-- `Ping`. -/
  | ping
  deriving DecidableEq, Repr

namespace Method

/-- What a method is sent. -/
abbrev Request : Method → Type
  | .findNode => FindNodeRequest
  | .findValue => FindValueRequest
  | .storeInit => StoreInitRequest
  | .store => StoreRequest
  | .ping => PingRequest

instance : (m : Method) → DecidableEq m.Request
  | .findNode => inferInstanceAs (DecidableEq FindNodeRequest)
  | .findValue => inferInstanceAs (DecidableEq FindValueRequest)
  | .storeInit => inferInstanceAs (DecidableEq StoreInitRequest)
  | .store => inferInstanceAs (DecidableEq StoreRequest)
  | .ping => inferInstanceAs (DecidableEq PingRequest)

/-- What a method answers. -/
abbrev Response : Method → Type
  | .findNode => FindNodeResponse
  | .findValue => FindValueResponse
  | .storeInit => StoreInitResponse
  | .store => StoreResponse
  | .ping => PingResponse

end Method

/-- `Session::local_to_rpc_peer`. -/
def localToRpcPeer (peer : Peer) : RpcPeer := ⟨peer.key.toBytes, peer.endpoint⟩

/-- `Session::rpc_peer_to_local`, `none` where the key is not a string of bits. -/
def rpcPeerToLocal (peer : RpcPeer) : Option Peer :=
  (Key.ofBytes peer.key).map fun key => ⟨key, peer.endpoint⟩

/-- A peer arrives as it was sent. -/
@[simp]
theorem rpcPeerToLocal_localToRpcPeer (peer : Peer) :
    rpcPeerToLocal (localToRpcPeer peer) = some peer := by
  simp [rpcPeerToLocal, localToRpcPeer]

end Distft
