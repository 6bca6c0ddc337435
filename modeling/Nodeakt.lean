import Nodeakt.Kv.ReadBack
import Nodeakt.Kv.QuorumCopies
import Nodeakt.Kv.Settling
import Nodeakt.Kv.Leave
import Nodeakt.Kv.Handoff
import Nodeakt.Kv.Resurrection
import Nodeakt.Kv.Uniqueness
import Nodeakt.Kv.TableVersions
import Nodeakt.Membership.Convergence
import Nodeakt.Clustering.View
import Nodeakt.Actor.AskDelivery
import Nodeakt.Actor.Lifecycle
import Nodeakt.Actor.Drain
import Nodeakt.Actor.Suspension
import Nodeakt.Actor.Budget
import Nodeakt.Actor.OneName
import Nodeakt.Worker.UniqueNames
import Nodeakt.Clustering.Relocator
import Nodeakt.Clustering.PlacementRecords
import Nodeakt.Net.References
import Nodeakt.Clustering.Splits
import Nodeakt.Clustering.NodeEvents
import Nodeakt.Clustering.InstalledRing
import Nodeakt.Clustering.Stopped
import Nodeakt.Membership.SelfRefutation
import Nodeakt.Kv.Reconciliation
import Nodeakt.Kv.MergeOrder
import Nodeakt.Kv.ClockHistory
import Nodeakt.Kv.MoveScheduler
import Nodeakt.Membership.SyncFrames
import Nodeakt.Membership.Broadcast
import Nodeakt.Worker.NameTables
import Nodeakt.Net.Handshake
import Nodeakt.Membership.ProbeWalk
import Nodeakt.Actor.HashRing
import Nodeakt.Net.HeadQueue
import Nodeakt.Kv.Janitor
import Nodeakt.Actor.EventStream
