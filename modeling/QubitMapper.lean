import QubitMapper.Circuit.Emission
import QubitMapper.Circuit.Error
import QubitMapper.Circuit.Kernel.Basic
import QubitMapper.Circuit.Kernel.Build
import QubitMapper.Circuit.Kernel.Check
import QubitMapper.Circuit.Kernel.Edit
import QubitMapper.Circuit.Kernel.Json
import QubitMapper.Circuit.Kernel.Order
import QubitMapper.Circuit.Kernel.Text
import QubitMapper.Circuit.Lowering
import QubitMapper.Circuit.Operation
import QubitMapper.Circuit.Operation.Json
import QubitMapper.Circuit.Program.Basic
import QubitMapper.Circuit.Program.Json
import QubitMapper.Cli.Arguments
import QubitMapper.Cli.Failure
import QubitMapper.Cli.Map
import QubitMapper.Cli.Run
import QubitMapper.Config.Basic
import QubitMapper.Decimal.Numeral
import QubitMapper.Decimal.Reader
import QubitMapper.Decimal.Shortest
import QubitMapper.Device.Basic
import QubitMapper.Device.Description
import QubitMapper.Device.Error
import QubitMapper.Device.Search
import QubitMapper.Device.Spec
import QubitMapper.Device.Text
import QubitMapper.Device.Topology
import QubitMapper.Files.Directory
import QubitMapper.Files.Reader
import QubitMapper.Json.Basic
import QubitMapper.Json.Printer
import QubitMapper.Json.Reader
import QubitMapper.Main
import QubitMapper.Pass.Basic
import QubitMapper.Pass.Connectivity
import QubitMapper.Pass.Labelling
import QubitMapper.Pass.Mapping
import QubitMapper.Pass.Pipeline
import QubitMapper.Pass.Slots
import QubitMapper.Placement.Assignment
import QubitMapper.Placement.Basic
import QubitMapper.Proofs.Acceptance
import QubitMapper.Proofs.Assignment
import QubitMapper.Proofs.Chains
import QubitMapper.Proofs.Connectivity
import QubitMapper.Proofs.Device.Description
import QubitMapper.Proofs.Device.Graph
import QubitMapper.Proofs.Device.Listed
import QubitMapper.Proofs.Device.Metric
import QubitMapper.Proofs.Device.Paths
import QubitMapper.Proofs.Device.Queue
import QubitMapper.Proofs.Device.Search
import QubitMapper.Proofs.Device.Sizes
import QubitMapper.Proofs.Device.Spec
import QubitMapper.Proofs.Device.Topology
import QubitMapper.Proofs.Device.Words
import QubitMapper.Proofs.Emission
import QubitMapper.Proofs.Finishing
import QubitMapper.Proofs.Json.Circuits
import QubitMapper.Proofs.Json.Documents
import QubitMapper.Proofs.Json.Reading
import QubitMapper.Proofs.Kernel.Calls
import QubitMapper.Proofs.Kernel.Checked
import QubitMapper.Proofs.Kernel.Consistent
import QubitMapper.Proofs.Kernel.Formed
import QubitMapper.Proofs.Kernel.Greedy
import QubitMapper.Proofs.Kernel.InPlace
import QubitMapper.Proofs.Kernel.Kept
import QubitMapper.Proofs.Kernel.Lookup
import QubitMapper.Proofs.Kernel.Order
import QubitMapper.Proofs.Kernel.Sharing
import QubitMapper.Proofs.Kernel.Sorted
import QubitMapper.Proofs.Kernel.Tally
import QubitMapper.Proofs.Kernel.Threads
import QubitMapper.Proofs.Kernel.Verify
import QubitMapper.Proofs.Labelling
import QubitMapper.Proofs.Lowering
import QubitMapper.Proofs.Mapping.Correctness
import QubitMapper.Proofs.Mapping.Emitted
import QubitMapper.Proofs.Mapping.Failure
import QubitMapper.Proofs.Mapping.Leftovers
import QubitMapper.Proofs.Mapping.Measurements
import QubitMapper.Proofs.Mapping.Registers
import QubitMapper.Proofs.Mapping.Run
import QubitMapper.Proofs.Mapping.Threads
import QubitMapper.Proofs.Mapping.Unswapped
import QubitMapper.Proofs.Meaning
import QubitMapper.Proofs.Outcome
import QubitMapper.Proofs.Padding
import QubitMapper.Proofs.Placement
import QubitMapper.Proofs.Placement.Calls
import QubitMapper.Proofs.Placement.Words
import QubitMapper.Proofs.Preparation
import QubitMapper.Proofs.Registers
import QubitMapper.Proofs.Routing.Ahead
import QubitMapper.Proofs.Routing.Costs
import QubitMapper.Proofs.Routing.Course
import QubitMapper.Proofs.Routing.Deferral
import QubitMapper.Proofs.Routing.Emissions
import QubitMapper.Proofs.Routing.Frontier
import QubitMapper.Proofs.Routing.History
import QubitMapper.Proofs.Routing.Involved
import QubitMapper.Proofs.Routing.Kept
import QubitMapper.Proofs.Routing.Layers
import QubitMapper.Proofs.Routing.Levels
import QubitMapper.Proofs.Routing.Open
import QubitMapper.Proofs.Routing.Rollback
import QubitMapper.Proofs.Routing.Schedule
import QubitMapper.Proofs.Routing.Selection
import QubitMapper.Proofs.Routing.Sinks
import QubitMapper.Proofs.Routing.Steps
import QubitMapper.Proofs.Routing.Termination
import QubitMapper.Proofs.Routing.Traceless
import QubitMapper.Proofs.Routing.Trials
import QubitMapper.Proofs.Routing.Turns
import QubitMapper.Proofs.Routing.Unblocking
import QubitMapper.Proofs.Routing.Underway
import QubitMapper.Proofs.Routing.Unswapped
import QubitMapper.Proofs.Routing.Visits
import QubitMapper.Proofs.Routing.Wiring
import QubitMapper.Proofs.Text
import QubitMapper.Routing.Cost
import QubitMapper.Routing.Error
import QubitMapper.Routing.Frontier
import QubitMapper.Routing.Lookahead
import QubitMapper.Routing.Options
import QubitMapper.Routing.Router
import QubitMapper.Text.Blank
import QubitMapper.Text.Unsigned
import QubitMapper.Yaml.Basic
import QubitMapper.Yaml.Cursor
import QubitMapper.Yaml.Reader
import QubitMapper.Yaml.Scalar
import QubitMapper.Yaml.Token
