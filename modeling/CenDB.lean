import CenDB.Tx.TransactionManager
import CenDB.Tx.Visibility
import CenDB.Tx.SnapshotIsolation
import CenDB.Tx.CommitOnce
import CenDB.Raft.ElectionSafety
import CenDB.Index.LayoutRuns
import CenDB.Security.Lockout
import CenDB.Security.SessionCrash
import CenDB.Security.SessionThreads
import CenDB.Storage.PaxNulls
import CenDB.Storage.Gorilla
import CenDB.Storage.DamagedBlocks
import CenDB.Cas.BlobReopen
import CenDB.Buffer.PoolContents
import CenDB.Pitr.VersionChain
import CenDB.Projection.GraphEdges
import CenDB.Projection.RelationalLookup
import CenDB.Projection.DocumentRoundTrip
import CenDB.Security.AuditTampering
import CenDB.Security.AuditRuns
import CenDB.Raft.CommitAdvance
import CenDB.Projection.KvDurable
import CenDB.Search.InvertedIndex
import CenDB.Vectors.HnswRecall
import CenDB.Wal.RecordStream
import CenDB.Wal.Checkpoints
import CenDB.Spatial.Wkb
import CenDB.Rdf.Evaluation
import CenDB.Rdf.Turtle
import CenDB.Rdf.SparqlPanics
import CenDB.Spatial.PredicateTermination
import CenDB.Storage.RejectedRows
import CenDB.Projection.TimeSeriesFlush
import CenDB.Projection.RelationalFlush
import CenDB.Projection.GraphSearch
import CenDB.Executor.ExternalSort
import CenDB.Executor.HybridJoin
import CenDB.Replication.WalShipping
import CenDB.Executor.ColumnNames
import CenDB.Executor.PipelinePanics
import CenDB.Optimizer.Planning
import CenDB.Optimizer.PredicateText
import CenDB.Security.MerkleProof
import CenDB.Spatial.Geohash
import CenDB.Security.Rbac
import CenDB.System.Backup
import CenDB.Spatial.SharedPoints
import CenDB.Spatial.RTree
import CenDB.System.CatalogJson
import CenDB.Spatial.JsonPanics
import CenDB.Optimizer.HyperLogLog
import CenDB.Optimizer.Histogram
import CenDB.Storage.SimdBits
import CenDB.Search.Fuzzy
import CenDB.Search.Relocation
import CenDB.Search.Snippet
import CenDB.Export.Csv
import CenDB.Export.Json
import CenDB.Jit.Plan
