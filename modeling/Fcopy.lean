import Fcopy.Wire.RoundTrip
import Fcopy.Wire.SizeLimit
import Fcopy.Wire.Canonical
import Fcopy.Wire.TargetLoop
import Fcopy.Wire.HostOrder
import Fcopy.Server.ParseSize
import Fcopy.Server.Unescape
import Fcopy.Server.Writes
import Fcopy.Server.Truncation
import Fcopy.Server.OneSession
import Fcopy.Server.Partition
import Fcopy.Server.Redelivery
import Fcopy.Server.CloseLength
import Fcopy.Server.Bookkeeping
import Fcopy.Server.Freshness
import Fcopy.Server.Lifetime
import Fcopy.Server.SessionTable
import Fcopy.Network.Acknowledge
import Fcopy.Network.Hops
import Fcopy.Network.OverTheWire
import Fcopy.Network.Causes
import Fcopy.Network.Completion
import Fcopy.Client.Delivery
import Fcopy.Client.Coverage
import Fcopy.Client.CloseCalls
import Fcopy.Client.Cleanup
import Fcopy.Client.HopBudget
import Fcopy.Client.LoadFiles
import Fcopy.Client.ParseTargets
import Fcopy.Client.SpeedLimit
import Fcopy.Client.ExitStatus
import Fcopy.Startup.InitConfig
import Fcopy.Startup.ParseArgs
import Fcopy.Client.Placement
import Fcopy.Client.Returns
