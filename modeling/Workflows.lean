import Workflows.Analysis.Report
import Workflows.Proofs.Cycle.Soundness
import Workflows.Query
import Workflows.Resolution.Codec
import Workflows.Resolution.Decision
import Workflows.Resolution.Workflow
import Workflows.Resolution.Flight
import Workflows.Proofs.Cycle.Completeness
import Workflows.Proofs.Graph.Successors
import Workflows.Proofs.Graph.Enumeration
import Workflows.Proofs.Graph.ExecutionPaths
import Workflows.Proofs.Document.StepIds
import Workflows.Proofs.Graph.NodeIds
import Workflows.Proofs.Resolution.Cache
import Workflows.Proofs.Resolution.Decision
import Workflows.Proofs.Resolution.Session
import Workflows.Proofs.Resolution.History
import Workflows.Proofs.Cycle.Spine
import Workflows.Proofs.Graph.ChainCycles
import Workflows.Proofs.Resolution.Entries
import Workflows.Proofs.Resolution.References
import Workflows.Proofs.Resolution.Work
import Workflows.Proofs.Resolution.WorkflowCycles
import Workflows.Proofs.Files.Components
import Workflows.Proofs.Files.SystemPath
import Workflows.Proofs.Resolution.Location
import Workflows.Proofs.Resolution.FailedDecision
import Workflows.Proofs.Resolution.Answers
import Workflows.Proofs.Resolution.Accounts
import Workflows.Proofs.Number.Decimal
import Workflows.Proofs.Number.Whole
import Workflows.Proofs.Json.Tokens
import Workflows.Proofs.Json.Grammar
import Workflows.Proofs.Json.Printing
import Workflows.Proofs.Json.Records
import Workflows.Proofs.Graph.Codec
import Workflows.Proofs.Diagram.JsonExport
import Workflows.Proofs.Graph.Places
import Workflows.Proofs.Analysis.Validation
import Workflows.Proofs.Analysis.SystemBase
import Workflows.Proofs.Analysis.Agreement
import Workflows.Proofs.Resolution.Flight
import Workflows.Proofs.Resolution.SingleFlight
import Workflows.Proofs.Diagram.DotText
import Workflows.Proofs.Document.FrontMatter
import Workflows.Proofs.Diagram.Identifiers
import Workflows.Proofs.Resolution.PathConflicts
import Workflows.Proofs.Graph.Distances
import Workflows.Proofs.Graph.MainPath
import Workflows.Proofs.Graph.ParallelEdges
import Workflows.Proofs.Resolution.Repetition
import Workflows.Proofs.Resolution.Advice
import Workflows.Proofs.Analysis.Readiness
import Workflows.Proofs.Workflow.Codec
import Workflows.Proofs.Workflow.Order
import Workflows.Proofs.Document.Enclosed
import Workflows.Proofs.Document.Renaming
import Workflows.Proofs.Files.Additions
import Workflows.Proofs.Resolution.Footprint
import Workflows.Proofs.Resolution.Replacement
import Workflows.Proofs.Resolution.Creation
import Workflows.Proofs.Resolution.CreatedDocuments
import Workflows.Proofs.Resolution.FailedRequest
import Workflows.Proofs.Resolution.Authority
import Workflows.Proofs.Resolution.Idempotence
import Workflows.Proofs.Resolution.ConflictGroups
import Workflows.Proofs.Resolution.PathAdvice
import Workflows.Proofs.Cycle.Recursion
import Workflows.Proofs.Graph.Eccentricity
import Workflows.Proofs.Graph.Shape
import Workflows.Proofs.Analysis.Refreshing
import Workflows.Proofs.Analysis.EdgeMarks
import Workflows.Proofs.Text.Lines
import Workflows.Proofs.Document.Layout
import Workflows.Proofs.Document.Fences
import Workflows.Proofs.Document.Items
import Workflows.Proofs.Document.CheckedTasks
import Workflows.Proofs.Document.Headings
import Workflows.Proofs.Document.LineGrammar
import Workflows.Proofs.Document.Scan
import Workflows.Proofs.Document.Targets
import Workflows.Proofs.Workflow.Reference
import Workflows.Proofs.Number.Rounding
import Workflows.Proofs.Number.Digits
import Workflows.Proofs.Document.Mapping
import Workflows.Proofs.Document.DependencyNames
import Workflows.Proofs.Diagram.FlowchartLines
import Workflows.Proofs.Json.Reals
import Workflows.Proofs.Json.Readable
import Workflows.Proofs.Diagram.StrippedJson
import Workflows.Proofs.Diagram.CardMarkup
import Workflows.Proofs.Graph.Positions
import Workflows.Proofs.Graph.EnumerationEnd
import Workflows.Proofs.Number.Quotient
import Workflows.Proofs.Analysis.Degrees
