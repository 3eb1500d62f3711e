import Mizu.TypeCheck.Rejection
import Mizu.Render.Responses
import Mizu.WorkerHost.Router
import Mizu.Ipc.Delivery
import Mizu.Ipc.ReloadIndices
import Mizu.Ipc.ReloadRoundTrip
import Mizu.Logic.Cost
import Mizu.WorkerHost.Supervision
import Mizu.LogicWorker.Noninterference
import Mizu.Render.Storage
import Mizu.Logic.Frames
import Mizu.Render.RedirectBudget
import Mizu.Render.TimerGate
import Mizu.Render.History
import Mizu.Render.AddressBar
import Mizu.Network.Delivery
import Mizu.Network.TokenHistory
import Mizu.Render.FileConfinement
import Mizu.Types.Eval.Filter
import Mizu.Logic.ShownParam
import Mizu.WorkerHost.Upload
import Mizu.Render.PartialRebuild
import Mizu.Render.DependencyIndex
import Mizu.LogicWorker.Refusals
import Mizu.Logic.Denotation
import Mizu.Network.StorageBatch
import Mizu.Network.SubresourceRedirect
import Mizu.Network.FetchTask
import Mizu.Logic.Parse.Negation
import Mizu.Logic.Parse.ActionSplit
import Mizu.Render.UrlBarEdits
import Mizu.Render.ImageKeys
import Mizu.Logic.Parse.Timers
import Mizu.Layout.EventForms
import Mizu.Style.Selectors
import Mizu.Render.ConditionalClasses
import Mizu.Render.HitTest
import Mizu.Network.YamlRoundTrip
import Mizu.Render.InlineCompletion
import Mizu.Render.TabSet
import Mizu.Network.H3Pool
import Mizu.Render.Accessibility
import Mizu.Render.ImageCodec
import Mizu.LogicWorker.UndoLog
import Mizu.UrlsBlock
import Mizu.Types.Eval.LocalIndex
import Mizu.Security.SandboxPaths
import Mizu.Render.NetworkLog
import Mizu.Imports
import Mizu.Render.Gestures
