import Glade.Client.Chains
import Glade.Client.Replays
import Glade.Client.Ws
import Glade.Kernel.Authority
import Glade.Kernel.Certificates
import Glade.Kernel.Convergence
import Glade.Kernel.LocalWrites
import Glade.Kernel.Losses
import Glade.Kernel.Receipts
import Glade.Node.Calls
import Glade.Node.Conversations
import Glade.Node.HelloBinds
import Glade.Node.Draining
import Glade.Node.IrohFrames
import Glade.Node.PullConverges
import Glade.Node.RecordReads
import Glade.Node.Removals
import Glade.Node.TextPayload
import Glade.Node.Transport
import Glade.Recovery.RoundTrip
import Glade.Registry.AppGrammar
import Glade.Registry.BindingFold
import Glade.Registry.DryRun
import Glade.Registry.Durable
import Glade.Registry.Policy
import Glade.Registry.Quarantine
import Glade.Registry.Renewals
import Glade.Registry.Workspaces
import Glade.Store.Faults
import Glade.Store.Surfaces
import Glade.Store.TornTails
