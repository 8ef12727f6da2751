import DistrHnsw.Lib.Result
import DistrHnsw.Lib.Digest
import DistrHnsw.Lib.Device
import DistrHnsw.Wal.Entry
import DistrHnsw.Wal.Segment
import DistrHnsw.Wal.Log
import DistrHnsw.Wal.TornTail
import DistrHnsw.Wal.Chain
import DistrHnsw.Wal.Writer
import DistrHnsw.Wal.Accepted
import DistrHnsw.Wal.WriterRun
import DistrHnsw.Lib.Program
import DistrHnsw.Lib.Together
import DistrHnsw.Lib.Returns
import DistrHnsw.Lib.Flat
import DistrHnsw.Lib.Reader
import DistrHnsw.Lib.Text
import DistrHnsw.Lib.Heap
import DistrHnsw.Index.Distance
import DistrHnsw.Index.Vectors
import DistrHnsw.Index.Search
import DistrHnsw.Lib.Rounding
import DistrHnsw.Index.Hnsw
import DistrHnsw.Index.Graph
import DistrHnsw.Index.Insert
import DistrHnsw.Index.Query
import DistrHnsw.Index.Sound
import DistrHnsw.Index.Loaded
import DistrHnsw.Index.Answers
import DistrHnsw.Partition.Reopened
import DistrHnsw.Partition.Steps
import DistrHnsw.Partition.Runs
import DistrHnsw.Metadata.Tables
import DistrHnsw.Trust.Grant
import DistrHnsw.Trust.KeySet
import DistrHnsw.Trust.Verify
import DistrHnsw.Trust.Store
import DistrHnsw.Trust.Forward
import DistrHnsw.Metadata.KeyChange
import DistrHnsw.Trust.Material
import DistrHnsw.Trust.Rotation
import DistrHnsw.Trust.Versions
import DistrHnsw.Trust.Exchange
import DistrHnsw.Trust.Rejoin
import DistrHnsw.Metadata.Writes
import DistrHnsw.Metadata.Portal
import DistrHnsw.Metadata.Collect
import DistrHnsw.Metadata.Recovery
import DistrHnsw.Metadata.Record
import DistrHnsw.Metadata.Sessions
import DistrHnsw.Metadata.Steps
import DistrHnsw.Metadata.Frames
import DistrHnsw.Metadata.Placements
import DistrHnsw.Metadata.History
import DistrHnsw.Metadata.PortalRuns
import DistrHnsw.Metadata.Visibility
import DistrHnsw.Lib.Rows
import DistrHnsw.Metadata.Files
import DistrHnsw.Metadata.Generations
import DistrHnsw.Metadata.Floors
import DistrHnsw.Metadata.Drain
import DistrHnsw.Metadata.Draining
import DistrHnsw.Metadata.Evidence
import DistrHnsw.Metadata.Fleet
import DistrHnsw.Metadata.Recoveries
import DistrHnsw.Metadata.Garbage
import DistrHnsw.Metadata.Backup
import DistrHnsw.Metadata.Credentials
import DistrHnsw.Metadata.DeadSessions
import DistrHnsw.Metadata.SessionRuns
import DistrHnsw.Metadata.Manifests
import DistrHnsw.Metadata.Offsite
import DistrHnsw.Metadata.OneManifest
import DistrHnsw.Metadata.Restores
import DistrHnsw.Agent.Listings
import DistrHnsw.Agent.Count
import DistrHnsw.Format.ReadBack
import DistrHnsw.Trust.Signers
import DistrHnsw.Backup.Stamp
import DistrHnsw.Index.Exact
import DistrHnsw.Index.Exhaustive
import DistrHnsw.Index.Overflow
import DistrHnsw.Portal.Listings
import DistrHnsw.Index.Builder
import DistrHnsw.Index.Built
import DistrHnsw.Index.Repair
import DistrHnsw.Lib.Lasting
import DistrHnsw.Index.Interleaved
import DistrHnsw.Partition.Interrupted
import DistrHnsw.Partition.Queries
import DistrHnsw.Partition.Unowned
import DistrHnsw.Partition.Sessions
import DistrHnsw.Partition.Forgotten
import DistrHnsw.Index.Order
import DistrHnsw.Index.Products
import DistrHnsw.Index.Descent
import DistrHnsw.Partition.Admission
import DistrHnsw.Partition.Window
import DistrHnsw.Partition.Contents
import DistrHnsw.Partition.Stored
import DistrHnsw.Partition.Ledger
import DistrHnsw.Wal.Remains
import DistrHnsw.Partition.Surviving
import DistrHnsw.Partition.Creation
import DistrHnsw.Partition.Durable
import DistrHnsw.Partition.Lives
import DistrHnsw.Partition.Serving
import DistrHnsw.Partition.Writing
import DistrHnsw.Metadata.Scrub
import DistrHnsw.Metadata.Scrubbing
import DistrHnsw.Metadata.Repairs
