import Hamster.Meta.ObjectLock
import Hamster.Meta.Refinement
import Hamster.Raftnode.CrashSafety
import Hamster.Meta.Persist
import Hamster.Place.Laws
import Hamster.Place.Unweighted
import Hamster.Gateway.Paging
import Hamster.Gateway.RangeReader
import Hamster.Gateway.Reclaim
import Hamster.Meta.AssignedIDs
import Hamster.Coord.Cleanup
import Hamster.Coord.WrapNonce
import Hamster.Coord.Sparse
import Hamster.Meta.Rewrites
import Hamster.Cluster.Interlock
import Hamster.Cluster.Issuance
import Hamster.Cluster.Stranding
import Hamster.Cluster.Answered
import Hamster.Cluster.Reentry
import Hamster.Cluster.ForwardWire
import Hamster.Datapath.Leftovers
import Hamster.Meta.RuleDates
import Hamster.Meta.KeyOrder
import Hamster.Wal.Rows
