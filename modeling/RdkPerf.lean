import RdkPerf.Lib.Store
import RdkPerf.Lib.Walk
import RdkPerf.Lib.Fold
import RdkPerf.Lib.CBytes
import RdkPerf.Lib.Frames
import RdkPerf.Model.Clock
import RdkPerf.Model.Objects
import RdkPerf.Model.Tree
import RdkPerf.Model.Process
import RdkPerf.Model.Message
import RdkPerf.Model.Service
import RdkPerf.Model.Api
import RdkPerf.Spec.CallTree
import RdkPerf.Spec.View
import RdkPerf.Spec.Nesting
import RdkPerf.Spec.Ledger
import RdkPerf.Spec.Figures
import RdkPerf.Proof.Rep
import RdkPerf.Proof.Sweep
import RdkPerf.Proof.TreeOps
import RdkPerf.Proof.ProcessOps
import RdkPerf.Proof.Entry
import RdkPerf.Proof.Printing
import RdkPerf.Proof.ServiceSim
import RdkPerf.Proof.InProcOps
import RdkPerf.Proof.InProcSim
import RdkPerf.Proof.Nested
import RdkPerf.Proof.CallTrie
import RdkPerf.Proof.RoundTrip
import RdkPerf.Proof.BuildsAgree
import RdkPerf.Proof.OpenRecords
import RdkPerf.Proof.Removal
import RdkPerf.Proof.Representation
import RdkPerf.Proof.Isolation
import RdkPerf.Proof.Control
import RdkPerf.Proof.Answers
import RdkPerf.Proof.Brackets
import RdkPerf.Lib.Timing
import RdkPerf.Proof.Times
import RdkPerf.Lib.Extremes
import RdkPerf.Proof.Intervals
import RdkPerf.Proof.Extremes
import RdkPerf.Proof.Consistent
import RdkPerf.Model.Timer
import RdkPerf.Proof.Timer
import RdkPerf.Proof.Delays
import RdkPerf.Proof.Gaps
import RdkPerf.Proof.MissingObjects
import RdkPerf.Model.RunLoop
import RdkPerf.Proof.RunLoop
import RdkPerf.Proof.ThresholdReports
import RdkPerf.Proof.ThresholdRange
import RdkPerf.Proof.ThresholdMessages
import RdkPerf.Model.Clients
import RdkPerf.Proof.Terminated
import RdkPerf.Model.Queue
import RdkPerf.Proof.Queue
import RdkPerf.Proof.Clock
import RdkPerf.Proof.ReportTimes
import RdkPerf.Lib.Spans
import RdkPerf.Model.Line
import RdkPerf.Proof.Line
import RdkPerf.Model.TreeObject
import RdkPerf.Proof.EntryBounds
import RdkPerf.Lib.Marks
import RdkPerf.Proof.Innermost
import RdkPerf.Proof.InsideCalls
import RdkPerf.Proof.StaleLines
import RdkPerf.Lib.Batches
import RdkPerf.Model.FuncMetrics
import RdkPerf.Proof.FuncMetrics
import RdkPerf.Proof.OwnCalls
import RdkPerf.Proof.ManyClients
import RdkPerf.Proof.Settles
import RdkPerf.Proof.Forgets
import RdkPerf.Lib.Channels
import RdkPerf.Model.Deployment
import RdkPerf.Proof.Deployment
import RdkPerf.Proof.Abandoned
import RdkPerf.Proof.WithoutKernel
import RdkPerf.Proof.TenBehind
import RdkPerf.Lib.Listing
import RdkPerf.Spec.Report
import RdkPerf.Proof.ReportLines
import RdkPerf.Proof.Log
import RdkPerf.Proof.ServiceLog
import RdkPerf.Proof.DeepReports
import RdkPerf.Proof.SameTrees
import RdkPerf.Proof.Survives
import RdkPerf.Proof.SameReports
import RdkPerf.Proof.Sheds
import RdkPerf.Proof.Owners
import RdkPerf.Lib.Sections
import RdkPerf.Lib.Monitor
import RdkPerf.Model.Threads
import RdkPerf.Proof.Threads
import RdkPerf.Model.Library
import RdkPerf.Proof.Library
import RdkPerf.Proof.LibraryEnd
import RdkPerf.Lib.Outcomes
import RdkPerf.Model.ShowCPU
import RdkPerf.Proof.Alike
import RdkPerf.Proof.ShowCPU
import RdkPerf.Proof.CpuTimes
