import FieldRecords.Config.File
import FieldRecords.Document.Json
import FieldRecords.Workload.Bench
import FieldRecords.Proofs.Answer
import FieldRecords.Proofs.Contents
import FieldRecords.Proofs.Codec
import FieldRecords.Proofs.Edits
import FieldRecords.Proofs.RoundTrip
import FieldRecords.Proofs.Merging
import FieldRecords.Proofs.Projecting
import FieldRecords.Proofs.Sessions
import FieldRecords.Proofs.Tables
import FieldRecords.Proofs.Overlays
import FieldRecords.Proofs.Updates
import FieldRecords.Proofs.Verdicts
import FieldRecords.Proofs.Sharing
import FieldRecords.Proofs.ProjectedUpdates
import FieldRecords.Proofs.Footprints
import FieldRecords.Proofs.Keys
import FieldRecords.Proofs.Tallies
import FieldRecords.Proofs.GeneratedRows
import FieldRecords.Proofs.DisjointClients
import FieldRecords.Proofs.Loading
import FieldRecords.Proofs.Reuse
import FieldRecords.Proofs.FailedCalls
import FieldRecords.Proofs.Reports
import FieldRecords.Proofs.CodecCalls
import FieldRecords.Proofs.Ledger
import FieldRecords.Proofs.Rejections
import FieldRecords.Proofs.RecorderSums
import FieldRecords.Proofs.Workers
import FieldRecords.Proofs.Truncation
import FieldRecords.Proofs.MergeLaws
import FieldRecords.Proofs.FieldLimits
import FieldRecords.Proofs.IndependentUpdates
import FieldRecords.Proofs.Selections
import FieldRecords.Proofs.ProjectionOrders
import FieldRecords.Proofs.SelectedNames
import FieldRecords.Proofs.RepeatedProjections
import FieldRecords.Proofs.Lookups
import FieldRecords.Proofs.KeyOrder
import FieldRecords.Proofs.Scans
import FieldRecords.Proofs.Warnings
import FieldRecords.Proofs.Mixes
import FieldRecords.Proofs.RowRevisions
import FieldRecords.Proofs.GrantedSteps
import FieldRecords.Proofs.CallCounts
import FieldRecords.Proofs.Offsets
import FieldRecords.Proofs.Replacements
import FieldRecords.Proofs.ReusedRows
import FieldRecords.Proofs.AddedResults
import FieldRecords.Proofs.Hints
