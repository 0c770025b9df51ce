import Distft.General.Exec
import Distft.Router.Capacity
import Distft.Router.Closest
import Distft.Router.DistanceClass
import Distft.Router.Lru
import Distft.Router.Map
import Distft.Router.Refresh
import Distft.Router.SelfPath
import Distft.Router.Stale
import Distft.Session.Lookup
import Distft.Session.Cluster
import Distft.Session.Forced
import Distft.Session.Replicas
import Distft.Session.UpdatePeer
import Distft.Session.ValueLookup
import Distft.Session.PingChain
import Distft.Session.StoreRace
import Distft.Session.Placeholders
import Distft.Session.Housekeeping
import Distft.Session.OwnWrites
import Distft.Session.TwoPhase
import Distft.Session.Payloads
import Distft.Session.FailedCalls
import Distft.Session.RouterLock
import Distft.Session.Teardown
import Distft.Session.LookupOnce
import Distft.Session.Churn
import Distft.Client.Truncated
import Distft.Client.Contract
import Distft.Client.IndexRace
import Distft.Client.CompleteReads
import Distft.Client.Streams
import Distft.Client.Strain
import Distft.Client.ClusterStore
import Distft.Client.Invocations
import Distft.Session.Provenance
import Distft.Session.Threads
