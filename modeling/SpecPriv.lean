import SpecPriv.Lib.Word
import SpecPriv.Lib.Loop
import SpecPriv.Lib.Batch
import SpecPriv.Lib.Framing
import SpecPriv.Lib.Intake
import SpecPriv.Lib.Replica
import SpecPriv.Lib.Ring
import SpecPriv.Lib.Mailboxes
import SpecPriv.Lib.FreeSlots
import SpecPriv.Lib.FirstFit
import SpecPriv.Lib.Counter
import SpecPriv.Lib.Meter
import SpecPriv.Lib.Regions
import SpecPriv.Lib.Stopping
import SpecPriv.Orig.Stage
import SpecPriv.Orig.Page
import SpecPriv.Orig.RoBuffer
import SpecPriv.Orig.ClearRead
import SpecPriv.Orig.Forward
import SpecPriv.Orig.EndIter
import SpecPriv.Orig.Scans
import SpecPriv.Orig.Frames
import SpecPriv.Orig.Walk
import SpecPriv.Orig.Region
import SpecPriv.Orig.Profile
import SpecPriv.Orig.BeginIter
import SpecPriv.Clean.LoopEvent
import SpecPriv.Orig.Pipeline
import SpecPriv.Trans.Receive
import SpecPriv.Trans.Merge
import SpecPriv.Trans.Validation
import SpecPriv.Trans.Channel
import SpecPriv.Trans.Hub
import SpecPriv.Trans.SwQueue
import SpecPriv.Trans.QueueMisuse
import SpecPriv.Trans.State
import SpecPriv.Trans.Program
import SpecPriv.Trans.Tables
import SpecPriv.Trans.Calls
import SpecPriv.Trans.Forward
import SpecPriv.Trans.Begin
import SpecPriv.Trans.Invariant
import SpecPriv.Trans.Uses
import SpecPriv.Trans.Load
import SpecPriv.Trans.Iterations
import SpecPriv.Trans.NoDone
import SpecPriv.Trans.Completes
import SpecPriv.Trans.PacketPool
import SpecPriv.Trans.Mapped
import SpecPriv.Trans.Pointers
import SpecPriv.Simple.State
import SpecPriv.Simple.Program
import SpecPriv.Simple.Capacity
import SpecPriv.Simple.Drain
import SpecPriv.Simple.Receive
import SpecPriv.Simple.BusyWait
import SpecPriv.Simple.Invocation
import SpecPriv.Simple.Schedule
import SpecPriv.Simple.ForwardCost
import SpecPriv.Simple.Price
import SpecPriv.Simple.Steps
import SpecPriv.Simple.Calls
import SpecPriv.Simple.Boundaries
import SpecPriv.Simple.TryCommit
import SpecPriv.Simple.Cells
import SpecPriv.Simple.Rows
import SpecPriv.Simple.Independence
import SpecPriv.Simple.PredictionRange
import SpecPriv.Compare.QueueCost
import SpecPriv.Compare.InvocationCost
import SpecPriv.Compare.PacketCount
import SpecPriv.Compare.Ownership
import SpecPriv.Compare.InFlight
import SpecPriv.Compare.Replay
import SpecPriv.Compare.Release
import SpecPriv.Compare.Sessions
