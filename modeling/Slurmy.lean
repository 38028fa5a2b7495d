import Slurmy.Lib.Machine
import Slurmy.Coordinator.Attempt
import Slurmy.Coordinator.Admission
import Slurmy.Coordinator.Conservation
import Slurmy.Coordinator.Observed
import Slurmy.Lib.Csv
import Slurmy.Submission.Record
import Slurmy.Submission.Selection
import Slurmy.Submission.Controller
import Slurmy.Submission.Prefix
import Slurmy.Submission.Runs
import Slurmy.Site.Scripts
import Slurmy.Site.Machine
import Slurmy.Site.Duplicates
import Slurmy.Site.Stop
import Slurmy.Site.Recovery
import Slurmy.Batch.Results
import Slurmy.Batch.Machine
import Slurmy.Batch.Final
import Slurmy.Batch.Index
import Slurmy.Lib.FileTree
import Slurmy.Upload.Machine
import Slurmy.Upload.Publication
import Slurmy.Lib.Packing
import Slurmy.Plan.Batches
import Slurmy.Lib.NumberedFiles
import Slurmy.Plan.Numbering
import Slurmy.Site.Marker
import Slurmy.Monitor.RecoveryWatch
import Slurmy.Monitor.Retries
import Slurmy.Rename.History
import Slurmy.Rename.Live
import Slurmy.Delete.Script
import Slurmy.Delete.Race
import Slurmy.Lib.LinkTree
import Slurmy.Delete.Replay
import Slurmy.Delete.Convergence
import Slurmy.Lib.Folder
import Slurmy.Build.Cache
import Slurmy.Build.Reuse
import Slurmy.Lib.Dict
import Slurmy.Monitor.SnapshotCache
import Slurmy.Lib.Slots
import Slurmy.Monitor.SnapshotOrder
import Slurmy.Monitor.SnapshotFresh
import Slurmy.Lib.Stamps
import Slurmy.Monitor.Overview
import Slurmy.Monitor.OverviewReads
import Slurmy.Export.Remote
import Slurmy.Export.Reuse
import Slurmy.Export.Current
import Slurmy.Export.Verbose
import Slurmy.Export.Agree
import Slurmy.Lib.CsvExcel
import Slurmy.Lib.Lines
import Slurmy.Lib.PosixPath
import Slurmy.Lib.StableSort
import Slurmy.Workflow.Pairs
import Slurmy.Workflow.Expand
import Slurmy.Workflow.Reproduce
import Slurmy.Lib.Attempt
import Slurmy.Lib.Disk
import Slurmy.Portable.Import
import Slurmy.Portable.Contained
import Slurmy.Coordinator.MaxMin
import Slurmy.Lib.Rotation
import Slurmy.Coordinator.Turns
import Slurmy.Placement.Select
import Slurmy.Placement.Sound
import Slurmy.Lib.Fullest
import Slurmy.Placement.Complete
import Slurmy.Plan.Allocation
import Slurmy.Lib.JsonString
import Slurmy.App.Exclusive
import Slurmy.Build.Fingerprint
import Slurmy.Lib.DiskAlone
import Slurmy.Workflow.Save
import Slurmy.App.Builder
import Slurmy.Workflow.Relocate
import Slurmy.Lib.Pages
import Slurmy.Monitor.TaskPages
import Slurmy.Lib.ShellWords
import Slurmy.Plan.Limiter
import Slurmy.Archives.Contained
import Slurmy.Archives.Expansion
import Slurmy.Lib.Json
import Slurmy.Lib.Replace
import Slurmy.Workflow.Builds
import Slurmy.Workflow.Migrate
import Slurmy.Lib.Scan
import Slurmy.Lib.ShellCommand
import Slurmy.Plan.Relocation
import Slurmy.Portable.Commands
import Slurmy.Lib.Template
import Slurmy.Workflow.Generated
import Slurmy.Workflow.Remap
import Slurmy.Lib.Counter
import Slurmy.Lib.CsvStream
import Slurmy.Monitor.CsvRows
import Slurmy.Monitor.Outcomes
import Slurmy.Workflow.Order
import Slurmy.Workflow.Suggestion
import Slurmy.Lib.Decimal
import Slurmy.Lib.DecimalText
import Slurmy.Lib.Lookahead
import Slurmy.StarExec.Measurements
import Slurmy.StarExec.Merge
import Slurmy.StarExec.Timestamps
import Slurmy.Lib.Utf8
import Slurmy.Monitor.Protocol
import Slurmy.Submission.JobNames
import Slurmy.Submission.Naming
import Slurmy.Export.StatusPattern
import Slurmy.Export.Statuses
import Slurmy.Lib.Symlinks
import Slurmy.Portable.AddTree
import Slurmy.Workflow.ArchivePaths
import Slurmy.Export.PairArchives
import Slurmy.Export.Published
import Slurmy.Lib.TemplateSub
import Slurmy.Lib.Utf8Sub
import Slurmy.Monitor.Summaries
import Slurmy.Workflow.Recovery
import Slurmy.Workflow.RenameTexts
import Slurmy.Monitor.Incremental
import Slurmy.Monitor.Decided
import Slurmy.Lib.Base64
import Slurmy.Lib.Utf8Ends
import Slurmy.Monitor.TaskOutput
import Slurmy.Export.Download
