import AgentKit.Sorting
import AgentKit.Text.Bytes
import AgentKit.Text.Utf8
import AgentKit.Text.Printable
import AgentKit.Text.Lowercase
import AgentKit.Text.Quoted
import AgentKit.Glob.WellFormed
import AgentKit.Glob.Match
import AgentKit.Exclusion
import AgentKit.Patch.Block
import AgentKit.Patch.Search
import AgentKit.Patch.Edit
import AgentKit.Patch.Unified
import AgentKit.Yaml.Fault
import AgentKit.Yaml.Input
import AgentKit.Yaml.Cursor
import AgentKit.Yaml.Token
import AgentKit.Yaml.Token.Scalar
import AgentKit.Yaml.Token.Property
import AgentKit.Yaml.Token.Stream
import AgentKit.Yaml.Node
import AgentKit.Text.Base64
import AgentKit.Double
import AgentKit.Timestamp
import AgentKit.Yaml.Value
import AgentKit.Yaml.Resolve
import AgentKit.Yaml.Decode
import AgentKit.Failure
import AgentKit.Csv
import AgentKit.Flags
import AgentKit.Yaml.Print
import AgentKit.Config
import AgentKit.Path
import AgentKit.Disk
import AgentKit.Disk.Call
import AgentKit.Text.Json
import AgentKit.Log
import AgentKit.Log.Line
import AgentKit.Tree
import AgentKit.Tree.Walk
import AgentKit.Tree.Count
import AgentKit.Tree.Copy
import AgentKit.Tree.Compare
import AgentKit.Kit.Document
import AgentKit.Kit.Agents
import AgentKit.Kit.Skills
import AgentKit.Kit.Workflows
import AgentKit.Kit.Scripts.AutoPreview
import AgentKit.Kit.Scripts.BundleAnalyzer
import AgentKit.Kit.Scripts.Checklist
import AgentKit.Kit.Scripts.DependencyAnalyzer
import AgentKit.Kit.Scripts.LintRunner
import AgentKit.Kit.Scripts.SchemaValidator
import AgentKit.Kit.Scripts.SecurityScan
import AgentKit.Kit.Scripts.SessionManager
import AgentKit.Kit.Scripts.TestRunner
import AgentKit.Kit.Scripts.VerifyAll
import AgentKit.Kit
import AgentKit.Table
import AgentKit.Display
import AgentKit.Version
import AgentKit.Source
import AgentKit.Install
import AgentKit.Command
import AgentKit.Command.Find
import AgentKit.Command.Help
import AgentKit.Command.Run
import AgentKit.Main
import AgentKit.Proofs.Order
import AgentKit.Proofs.Names
import AgentKit.Proofs.Places
import AgentKit.Proofs.Following
import AgentKit.Proofs.Calls
import AgentKit.Proofs.Walking
import AgentKit.Proofs.Sources
import AgentKit.Proofs.Copying
import AgentKit.Proofs.Edits
import AgentKit.Proofs.Reaching
import AgentKit.Proofs.Comparing
import AgentKit.Proofs.Hindsight
import AgentKit.Proofs.Alongside
import AgentKit.Proofs.Elsewhere
import AgentKit.Proofs.Detours
import AgentKit.Proofs.Delivery
import AgentKit.Proofs.Installing
import AgentKit.Proofs.Outcomes
import AgentKit.Proofs.Counting
import AgentKit.Proofs.Agreement
import AgentKit.Proofs.Recovery
import AgentKit.Proofs.Repair
import AgentKit.Proofs.FreshInstall
import AgentKit.Proofs.Untouched
import AgentKit.Proofs.Scripts
import AgentKit.Proofs.Halting
import AgentKit.Proofs.Subdirectories
import AgentKit.Proofs.DepthFirst
import AgentKit.Proofs.Verdict
import AgentKit.Proofs.CommandLine
import AgentKit.Proofs.Settings
import AgentKit.Proofs.Base64
import AgentKit.Proofs.Characters
import AgentKit.Proofs.RoundTrip
import AgentKit.Proofs.Diagnostics
import AgentKit.Proofs.Columns
import AgentKit.Proofs.Looking
import AgentKit.Proofs.Variants
import AgentKit.Proofs.Excluding
import AgentKit.Proofs.Patterns
import AgentKit.Proofs.Matching
import AgentKit.Proofs.Patches
