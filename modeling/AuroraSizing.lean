import AuroraSizing.Foundation.Journal
import AuroraSizing.Objects.Messages
import AuroraSizing.Objects.Store
import AuroraSizing.Objects.Repository
import AuroraSizing.Transaction.Observer
import AuroraSizing.Transaction.Verdict
import AuroraSizing.Transaction.Runs
import AuroraSizing.Transaction.Durability
import AuroraSizing.Transaction.Atomicity
import AuroraSizing.Cache.ObjectDTO
import AuroraSizing.Foundation.Segments
import AuroraSizing.Wire.Messages
import AuroraSizing.Wire.Connection
import AuroraSizing.Wire.Framing
import AuroraSizing.Wire.GetByName
import AuroraSizing.Foundation.SqlText
import AuroraSizing.Lookup.Agreement
import AuroraSizing.Foundation.KeyedRows
import AuroraSizing.Objects.Tables
import AuroraSizing.Objects.MapRefinement
import AuroraSizing.Foundation.System
import AuroraSizing.Pool.SimpleDataSource2
import AuroraSizing.Pool.Ownership
import AuroraSizing.Cache.Coherence
import AuroraSizing.Foundation.RowLocks
import AuroraSizing.Transaction.Interleaving
import AuroraSizing.Transaction.LostUpdate
import AuroraSizing.Pool.Conservation
import AuroraSizing.Transaction.Absorbing
import AuroraSizing.Transaction.Closing
import AuroraSizing.Transaction.Outcome
import AuroraSizing.Objects.SingleReads
import AuroraSizing.Wire.Requests
import AuroraSizing.Wire.Responses
import AuroraSizing.Wire.Progress
import AuroraSizing.Wire.Capacity
import AuroraSizing.Pool.InnerState
import AuroraSizing.Transaction.ExtTxnId
import AuroraSizing.Cache.Snapshots
import AuroraSizing.Cache.MonotonicReads
import AuroraSizing.Objects.ResultSet
import AuroraSizing.Objects.MultiReads
import AuroraSizing.Objects.IndexBatches
import AuroraSizing.Objects.Truncation
import AuroraSizing.Objects.Reconciliation
import AuroraSizing.Pool.Borrowers
import AuroraSizing.Foundation.TextKeys
import AuroraSizing.Foundation.Handover
import AuroraSizing.Transaction.TransLog
import AuroraSizing.Foundation.Copies
import AuroraSizing.Wire.ClientFrames
import AuroraSizing.Wire.StaleBytes
import AuroraSizing.Lookup.Existence
import AuroraSizing.Objects.IndexReads
import AuroraSizing.Objects.IndexInsertion
import AuroraSizing.Pool.Shutdown
import AuroraSizing.Foundation.Raising
import AuroraSizing.Objects.HotReads
import AuroraSizing.Foundation.Overlap
import AuroraSizing.Foundation.Parking
import AuroraSizing.Foundation.Rounding
import AuroraSizing.Foundation.Serials
import AuroraSizing.Foundation.Windows
import AuroraSizing.Foundation.WorkPool
import AuroraSizing.Lookup.Paging
import AuroraSizing.Objects.BulkLoad
import AuroraSizing.Foundation.While
import AuroraSizing.Foundation.Totals
import AuroraSizing.Sizing.DistinctSizes
import AuroraSizing.Sizing.GenSizeCsv
import AuroraSizing.Sizing.PeakCap
import AuroraSizing.Foundation.Readers
import AuroraSizing.Cache.Faithful
import AuroraSizing.Foundation.Doubles
import AuroraSizing.Objects.IndexPages
import AuroraSizing.Foundation.SqlSelect
import AuroraSizing.Objects.IndexQuery
import AuroraSizing.Foundation.Maps
import AuroraSizing.Objects.IndexSchema
import AuroraSizing.Objects.SerialLoad
import AuroraSizing.Foundation.Outbox
import AuroraSizing.Transaction.TransactorRuns
import AuroraSizing.Client.MultiGets
import AuroraSizing.Foundation.RoundRobin
import AuroraSizing.Wire.ContextPool
import AuroraSizing.Cache.WarmUp
import AuroraSizing.Cache.WarmUpRuns
import AuroraSizing.Foundation.CommitOrder
import AuroraSizing.Transaction.CommitOrder
import AuroraSizing.Transaction.CommittedMap
import AuroraSizing.Wire.Session
import AuroraSizing.Foundation.Cursor
import AuroraSizing.Lookup.GetTypes
import AuroraSizing.Lookup.ChangingTables
import AuroraSizing.Foundation.Ledger
import AuroraSizing.Transaction.ClientStreams
import AuroraSizing.Transaction.AllOrNothing
import AuroraSizing.Transaction.ClientMap
