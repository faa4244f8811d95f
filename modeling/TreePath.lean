import TreePath.Compiler
import TreePath.Decimal.Shortest
import TreePath.Forest.Basic
import TreePath.Forest.Clone
import TreePath.Forest.Edit
import TreePath.Forest.Element
import TreePath.Forest.Walk
import TreePath.Json.Basic
import TreePath.Json.Equality
import TreePath.Json.Literal
import TreePath.Json.Printer
import TreePath.Json.Reader
import TreePath.Log
import TreePath.Log.Vocabulary
import TreePath.Match
import TreePath.Metrics
import TreePath.Number
import TreePath.Path.Basic
import TreePath.Path.Name
import TreePath.Path.Reader
import TreePath.Profile.Report
import TreePath.Profile.Session
import TreePath.Proofs.Compiler
import TreePath.Proofs.Forest.Ancestors
import TreePath.Proofs.Forest.Attachments
import TreePath.Proofs.Forest.Blocks
import TreePath.Proofs.Forest.Copies
import TreePath.Proofs.Forest.Copying
import TreePath.Proofs.Forest.Correspondence
import TreePath.Proofs.Forest.Edits
import TreePath.Proofs.Forest.Isolation
import TreePath.Proofs.Forest.Navigation
import TreePath.Proofs.Forest.Partings
import TreePath.Proofs.Forest.Reversals
import TreePath.Proofs.Forest.Tours
import TreePath.Proofs.Json.RoundTrip
import TreePath.Proofs.Json.Scalars
import TreePath.Proofs.Json.Text
import TreePath.Proofs.Lists
import TreePath.Proofs.Match.Composition
import TreePath.Proofs.Match.Confinement
import TreePath.Proofs.Match.Correspondence
import TreePath.Proofs.Match.Descendants
import TreePath.Proofs.Match.DocumentOrder
import TreePath.Proofs.Match.FanOut
import TreePath.Proofs.Match.Growth
import TreePath.Proofs.Match.Levels
import TreePath.Proofs.Match.Occurrences
import TreePath.Proofs.Match.Predicates
import TreePath.Proofs.Match.Runs
import TreePath.Proofs.Match.Seeds
import TreePath.Proofs.Path.Concatenation
import TreePath.Proofs.Path.Grammar
import TreePath.Proofs.Path.Longest
import TreePath.Proofs.Path.Names
import TreePath.Proofs.Path.Pieces
import TreePath.Proofs.Path.Rendering
import TreePath.Proofs.Recency
import TreePath.Proofs.Recent
import TreePath.Proofs.Registry
import TreePath.Proofs.Settings
import TreePath.Proofs.Settings.Document
import TreePath.Proofs.Settings.Fields
import TreePath.Proofs.Settings.Keywords
import TreePath.Proofs.Settings.Loading
import TreePath.Proofs.Settings.Merge
import TreePath.Proofs.Settings.Override
import TreePath.Proofs.Workspace.Accounts
import TreePath.Proofs.Workspace.Actions
import TreePath.Proofs.Workspace.Advice
import TreePath.Proofs.Workspace.Bookkeeping
import TreePath.Proofs.Workspace.Measuring
import TreePath.Proofs.Workspace.Outcomes
import TreePath.Proofs.Workspace.Overriding
import TreePath.Proofs.Workspace.Profilers
import TreePath.Proofs.Workspace.Queries
import TreePath.Proofs.Workspace.Recent
import TreePath.Proofs.Workspace.Sessions
import TreePath.Proofs.Workspace.Transparency
import TreePath.Readings
import TreePath.Recency
import TreePath.Registry
import TreePath.Request
import TreePath.Settings.Basic
import TreePath.Settings.Document
import TreePath.Settings.Override
import TreePath.Text.Printable
import TreePath.Text.Quoted
import TreePath.Workspace.Basic
import TreePath.Workspace.Matcher
import TreePath.Workspace.Profiling
import TreePath.Workspace.Query
import TreePath.Workspace.Settings
