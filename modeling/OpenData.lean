import OpenData.Proofs.Buffer.Fencing
import OpenData.Proofs.Buffer.Resume
import OpenData.Proofs.Buffer.Gc
import OpenData.Proofs.Common.Coordinator
import OpenData.Proofs.Common.Watermarks
import OpenData.Proofs.Log.Rollover
import OpenData.Proofs.Log.Sync
import OpenData.Proofs.Timeseries.Database
import OpenData.Proofs.Vector.Merge
import OpenData.Proofs.Buffer.Producer
import OpenData.Proofs.Buffer.Decode
import OpenData.Proofs.Buffer.Edits
import OpenData.Proofs.Vector.TopK
import OpenData.Proofs.Timeseries.Matching
import OpenData.Proofs.Timeseries.MatrixSelector
import OpenData.Proofs.Vector.BatchSearch
import OpenData.Proofs.Vector.Freeze
import OpenData.Proofs.Timeseries.Reader
import OpenData.Proofs.Timeseries.Pins
import OpenData.Proofs.Timeseries.Subquery
import OpenData.Proofs.Timeseries.TopK
import OpenData.Proofs.Vector.Keys
import OpenData.Proofs.Timeseries.Buckets
import OpenData.Proofs.Timeseries.BytesReader
