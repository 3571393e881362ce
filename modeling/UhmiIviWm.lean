import UhmiIviWm.Lib.Batches
import UhmiIviWm.Lib.CallPlan
import UhmiIviWm.Lib.Confluence
import UhmiIviWm.Lib.DeferredMirror
import UhmiIviWm.Lib.KeyedList
import UhmiIviWm.Lib.Lockstep
import UhmiIviWm.Lib.Moves
import UhmiIviWm.Lib.Noninterference
import UhmiIviWm.Lib.Occurrences
import UhmiIviWm.Lib.PairedCalls
import UhmiIviWm.Lib.Refinement
import UhmiIviWm.Lib.Settling
import UhmiIviWm.Lib.TransitionSystem
import UhmiIviWm.Lib.WriteBuffer
import UhmiIviWm.Model.CommParser
import UhmiIviWm.Model.CommReceiver
import UhmiIviWm.Model.CommitBuffer
import UhmiIviWm.Model.Compositor
import UhmiIviWm.Model.Connections
import UhmiIviWm.Model.Desktop
import UhmiIviWm.Model.EventLoop
import UhmiIviWm.Model.IlmControlWrapper
import UhmiIviWm.Model.Layout
import UhmiIviWm.Model.MainLoop
import UhmiIviWm.Model.ParseJson
import UhmiIviWm.Model.ReceiveBuffer
import UhmiIviWm.Model.Responses
import UhmiIviWm.Model.Session
import UhmiIviWm.Model.Types
import UhmiIviWm.Model.Wmsendcmd
import UhmiIviWm.Verify.BodyReader
import UhmiIviWm.Verify.Calls
import UhmiIviWm.Verify.Commit
import UhmiIviWm.Verify.CommitBuffer
import UhmiIviWm.Verify.Connections
import UhmiIviWm.Verify.Conserve
import UhmiIviWm.Verify.Desktop
import UhmiIviWm.Verify.Dialogue
import UhmiIviWm.Verify.Documents
import UhmiIviWm.Verify.Draining
import UhmiIviWm.Verify.Effects
import UhmiIviWm.Verify.Existence
import UhmiIviWm.Verify.Expressible
import UhmiIviWm.Verify.Failures
import UhmiIviWm.Verify.Faithful
import UhmiIviWm.Verify.Framing
import UhmiIviWm.Verify.Independence
import UhmiIviWm.Verify.Insertion
import UhmiIviWm.Verify.Integers
import UhmiIviWm.Verify.Interchangeable
import UhmiIviWm.Verify.LayerOrder
import UhmiIviWm.Verify.MainLoop
import UhmiIviWm.Verify.Merge
import UhmiIviWm.Verify.Narrowing
import UhmiIviWm.Verify.Notifications
import UhmiIviWm.Verify.Outline
import UhmiIviWm.Verify.Partial
import UhmiIviWm.Verify.Placement
import UhmiIviWm.Verify.Plans
import UhmiIviWm.Verify.Pointers
import UhmiIviWm.Verify.Properties
import UhmiIviWm.Verify.Puts
import UhmiIviWm.Verify.ReceiveBuffer
import UhmiIviWm.Verify.Records
import UhmiIviWm.Verify.RefCount
import UhmiIviWm.Verify.Removal
import UhmiIviWm.Verify.Replay
import UhmiIviWm.Verify.Reset
import UhmiIviWm.Verify.Responses
import UhmiIviWm.Verify.Retries
import UhmiIviWm.Verify.ReturnCodes
import UhmiIviWm.Verify.Scope
import UhmiIviWm.Verify.ScreenOrder
import UhmiIviWm.Verify.Sessions
import UhmiIviWm.Verify.Settling
import UhmiIviWm.Verify.Shares
import UhmiIviWm.Verify.Steps
import UhmiIviWm.Verify.Strays
import UhmiIviWm.Verify.Strings
import UhmiIviWm.Verify.Tree
import UhmiIviWm.Verify.Uninit
import UhmiIviWm.Verify.Unique
import UhmiIviWm.Verify.Wmsendcmd
import UhmiIviWm.Verify.Wrappers
