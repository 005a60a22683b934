import PipeShell.Text.Blank
import PipeShell.Pipeline.Reading
import PipeShell.Pipeline.Writing
import PipeShell.Wire.Frame
import PipeShell.Wire.Response
import PipeShell.Files.PathText
import PipeShell.Files.WorkDir
import PipeShell.Net.Address
import PipeShell.Process.Job
import PipeShell.Files.Host
import PipeShell.Shell.Builtin
import PipeShell.Shell.Execution
import PipeShell.Yaml.BlockScalar
import PipeShell.Yaml.FlowScalar
import PipeShell.Yaml.Token
import PipeShell.Settings.Basic
import PipeShell.Settings.Reading
import PipeShell.Net.Network
import PipeShell.Service.Session
import PipeShell.Service.Client
import PipeShell.Service.LocalLoop
import PipeShell.Service.Server
import PipeShell.CommandLine.Options
import PipeShell.CommandLine.Help
import PipeShell.CommandLine.Run
import PipeShell.Main
import PipeShell.Proofs.Pipeline.OnePass
import PipeShell.Proofs.Text.Utf8
import PipeShell.Proofs.Pipeline.Stages
import PipeShell.Proofs.Pipeline.Scan
import PipeShell.Proofs.Pipeline.Agreement
import PipeShell.Proofs.Pipeline.RoundTrip
import PipeShell.Proofs.Text.Lossy
import PipeShell.Proofs.Pipeline.NormalForm
import PipeShell.Proofs.Wire.Calls
import PipeShell.Proofs.Process.Idle
import PipeShell.Proofs.Shell.Input
import PipeShell.Proofs.Wire.Unbroken
import PipeShell.Proofs.Wire.Requests
import PipeShell.Proofs.Service.Transcript
import PipeShell.Proofs.Shell.Folding
import PipeShell.Proofs.Shell.Readers
import PipeShell.Proofs.Shell.StageRuns
import PipeShell.Proofs.Shell.Statuses
import PipeShell.Proofs.Service.Dialogue
import PipeShell.Proofs.Shell.Composition
import PipeShell.Proofs.Shell.Isolation
import PipeShell.Proofs.Service.Courses
import PipeShell.Proofs.Shell.Endpoints
import PipeShell.Proofs.Shell.Directory
import PipeShell.Proofs.Service.LocalRemote
import PipeShell.Proofs.Service.Memory
import PipeShell.Proofs.Service.Sessions
import PipeShell.Proofs.Service.Lockstep
import PipeShell.Proofs.Service.Sharing
import PipeShell.Proofs.Service.Interchange
import PipeShell.Proofs.Pipeline.Spacing
import PipeShell.Proofs.Pipeline.Joining
import PipeShell.Proofs.Shell.StatusRange
import PipeShell.Proofs.Service.LastStatus
import PipeShell.Proofs.Service.Conversation
import PipeShell.Proofs.Shell.StandIn
import PipeShell.Proofs.Shell.Unopened
import PipeShell.Proofs.Shell.InTurn
import PipeShell.Proofs.Files.PathText
import PipeShell.Proofs.Files.Walk
import PipeShell.Proofs.Files.Resolving
import PipeShell.Proofs.Files.Building
import PipeShell.Proofs.Shell.CanonicalDirectory
import PipeShell.Proofs.Files.Search
import PipeShell.Proofs.Net.Accepted
import PipeShell.Proofs.Wire.OneFrame
import PipeShell.Proofs.Service.Parting
import PipeShell.Proofs.Wire.Bounds
import PipeShell.Proofs.Pipeline.Marks
import PipeShell.Proofs.Pipeline.Characters
import PipeShell.Proofs.Files.Handles
import PipeShell.Proofs.Process.Waiting
