import Samsara.Lib.Run
import Samsara.Lib.Progress
import Samsara.Lib.Lockstep
import Samsara.Lib.Search
import Samsara.Lib.Buffer
import Samsara.Lib.Linked
import Samsara.Lib.Linearize
import Samsara.Lib.Levels
import Samsara.Marker
import Samsara.Marker.Steps
import Samsara.Gc.Barrier
import Samsara.Gc.Capture
import Samsara.Gc.Phases
import Samsara.Gc.System
import Samsara.Gc.Moves
import Samsara.Gc.Ending
import Samsara.Gc.Snapshot
import Samsara.Gc.Agree
import Samsara.Gc.Incremental
import Samsara.Gc.Worker
import Samsara.Gc.Drains
import Samsara.Gc.Coverage
import Samsara.Gc.Garbage
import Samsara.Gc.TriColor
import Samsara.Gc.Complete
import Samsara.Bump
import Samsara.Arena
import Samsara.Region.Heap
import Samsara.Region.Ops
import Samsara.Region.Client
import Samsara.Region.Cycle
import Samsara.Region.States
import Samsara.Region.Indices
import Samsara.Region.Refusal
import Samsara.Region.Space
import Samsara.Region.OneRegion
import Samsara.Region.LiveCounts
import Samsara.Region.Program
import Samsara.Gc.Reclaim
import Samsara.Hazard
import Samsara.Hazard.Table
import Samsara.Hazard.Registry
import Samsara.Hazard.WaitFree
import Samsara.Hazard.Guards
import Samsara.Hazard.Answers
import Samsara.Hazard.Reclamation
import Samsara.Hazard.Queries
import Samsara.Hazard.Acquire
import Samsara.Treiber.System
import Samsara.Treiber.Safe
import Samsara.Treiber.Reads
import Samsara.Treiber.Linear
import Samsara.Treiber.Drain
import Samsara.Treiber.LockFree
import Samsara.SafeTreiber.System
import Samsara.SafeTreiber.Moves
import Samsara.SafeTreiber.Publish
import Samsara.SafeTreiber.Own
import Samsara.SafeTreiber.Safe
import Samsara.SafeTreiber.Table
import Samsara.SafeTreiber.Reclaims
import Samsara.SafeTreiber.Deferred
import Samsara.SafeTreiber.Solo
import Samsara.SafeTreiber.Drop
import Samsara.SafeTreiber.Progress
import Samsara.SafeTreiber.Memory
import Samsara.SafeTreiber.Linear
import Samsara.SafeTreiber.Weak
import Samsara.SafeTreiber.Aba
