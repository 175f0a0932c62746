import Signpost.Solver.TruthTable
import Signpost.Solver.Exploration
import Signpost.Solver.KeyConstraints
import Signpost.Solver.Isolation
import Signpost.Solver.Delivery
import Signpost.Solver.Restriction
import Signpost.Solver.Unsubscription
import Signpost.Tactic.Accounting
import Signpost.Tactic.Termination
import Signpost.Flood.Flooding
import Signpost.Comms.Broadcast
import Signpost.Comms.Connections
import Signpost.Comms.Duplicates
import Signpost.Comms.Framing
import Signpost.Comms.RemoteResolution
import Signpost.Domain.Authority
import Signpost.Domain.Convergence
import Signpost.Domain.Expiry
import Signpost.Domain.Question
import Signpost.Engine.Stackability
import Signpost.Frost.Rpc
import Signpost.Server.Registration
import Signpost.Tactic.Provisions
import Signpost.Tactic.Answers
import Signpost.Tactic.Dispatch
import Signpost.Routing.FullMesh
import Signpost.Routing.Lifetime
import Signpost.Routing.OwnRecords
import Signpost.Tactic.Grammar
import Signpost.Tactic.DnsResolve
import Signpost.Server.SolvingServer
import Signpost.Comms.Dialling
import Signpost.Tactic.Blocks
import Signpost.Tactic.Reuse
import Signpost.Tactic.Versions
import Signpost.Machine.Rewriting
import Signpost.Machine.Runs
import Signpost.Tactic.Requirements
import Signpost.Tactic.Substitution
import Signpost.Machine.Regexp
import Signpost.Machine.RegexpSyntax
import Signpost.Tactic.Provides
import Signpost.Tactic.AliasChains
import Signpost.Tactic.SignpostFinder
import Signpost.Engine.Connecting
import Signpost.Engine.Tactizing
import Signpost.Routing.NodeRuns
import Signpost.Routing.DeadNodes
import Signpost.Server.Discovery
import Signpost.Server.Resources
import Signpost.Server.Mdns
import Signpost.Machine.Scanning
import Signpost.Frost.Nodes
import Signpost.Frost.Server
import Signpost.Frost.SpController
import Signpost.Machine.Memory
import Signpost.Client.Hostent
import Signpost.Socialnet.SqliteController
import Signpost.Simulation.Pending
import Signpost.Simulation.Caching
import Signpost.Frost.Grammar
import Signpost.Frost.Soundness
import Signpost.Frost.Completeness
import Signpost.Frost.Printing
import Signpost.Frost.Errors
import Signpost.Client.Addrtuples
import Signpost.Routing.Provenance
import Signpost.Routing.Evaluation
import Signpost.Frost.Signalling
import Signpost.Domain.Hearsay
import Signpost.Solver.Reordering
import Signpost.Routing.Reordering
import Signpost.Machine.Resting
import Signpost.Flood.Resting
import Signpost.Comms.Resting
import Signpost.Engine.Dialogues
import Signpost.Machine.Effects
import Signpost.Simulation.Load
import Signpost.Simulation.Utilisation
import Signpost.Socialnet.AddressBook
import Signpost.Socialnet.Friends
import Signpost.Server.Settling
import Signpost.Server.WebServer
import Signpost.Tactic.Serving
import Signpost.Domain.Forgetting
import Signpost.Client.ReverseLookup
