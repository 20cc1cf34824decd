import Fsracer.Operation
import Fsracer.Trace
import Fsracer.Lib.Reach
import Fsracer.Lib.Search
import Fsracer.Lib.Ordered
import Fsracer.Graph
import Fsracer.GraphCalls
import Fsracer.DependencyInference
import Fsracer.Run
import Fsracer.History
import Fsracer.Recorded
import Fsracer.Order
import Fsracer.Observed
import Fsracer.Alive
import Fsracer.Links
import Fsracer.Barrier
import Fsracer.Pruning
import Fsracer.PendingEvent
import Fsracer.TriggerContext
import Fsracer.Print
import Fsracer.Path
import Fsracer.Table
import Fsracer.InodeTable
import Fsracer.Lib.NameTree
import Fsracer.Lookup
import Fsracer.FSAnalyzer
import Fsracer.Accesses
import Fsracer.FsRun
import Fsracer.Summary
import Fsracer.RaceDetector
import Fsracer.AsyncOps
import Fsracer.Lib.Munch
import Fsracer.TraceLexer
import Fsracer.TraceParser
import Fsracer.Dump
import Fsracer.Lines
import Fsracer.Reparse
import Fsracer.NodeTrace
import Fsracer.UvFsWork
import Fsracer.RoundTrip
import Fsracer.ParsedTrace
import Fsracer.Redump
import Fsracer.Handles
import Fsracer.PoppedKeys
import Fsracer.ReverseTable
import Fsracer.Recursion
import Fsracer.Returns
import Fsracer.OpenFrame
import Fsracer.RenameIdentity
import Fsracer.Aborts
import Fsracer.Agreement
import Fsracer.EdgeList
import Fsracer.FailedOps
import Fsracer.Naming
import Fsracer.DeferredUnlink
import Fsracer.Lib.LinkResolution
import Fsracer.LinkFollowing
import Fsracer.Lib.Nesting
import Fsracer.BlockBrackets
import Fsracer.Lib.Json
import Fsracer.DumpJson
import Fsracer.NodeGenerator
import Fsracer.LinkRemoval
import Fsracer.Tracer
import Fsracer.Lib.Machine
import Fsracer.TracerStore
import Fsracer.Lib.Owners
import Fsracer.TracerRuns
import Fsracer.Threads
import Fsracer.Works
import Fsracer.Lib.Mailbox
import Fsracer.Submissions
import Fsracer.Sentences
import Fsracer.Recording
import Fsracer.Report
import Fsracer.Traced
import Fsracer.Verdicts
import Fsracer.Provenance
import Fsracer.Dot
import Fsracer.Lib.Fields
import Fsracer.DumpCsv
import Fsracer.Processor
