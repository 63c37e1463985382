import EosShard.Found.Bytes
import EosShard.Found.File
import EosShard.Found.CString
import EosShard.Found.Loop
import EosShard.Found.Search
import EosShard.Found.Interleaving
import EosShard.Found.Framing
import EosShard.Found.BitArray
import EosShard.Found.Machine
import EosShard.Found.Ledger
import EosShard.Found.Stream
import EosShard.Found.Mixing
import EosShard.Found.Extents
import EosShard.Found.Transfers
import EosShard.Found.RefCount
import EosShard.Common
import EosShard.Names
import EosShard.HexNames
import EosShard.V1.Format
import EosShard.V1.GVariant
import EosShard.V1.Reader
import EosShard.V1.Traversal
import EosShard.V1.Writer
import EosShard.V2.Format
import EosShard.V2.Reader
import EosShard.V2.Open
import EosShard.V2.Traversal
import EosShard.V2.Writer
import EosShard.V2.ConstantPool
import EosShard.V2.History
import EosShard.V2.Dedup
import EosShard.V2.Concurrent
import EosShard.V2.Layout
import EosShard.V2.Archive
import EosShard.V2.Filed
import EosShard.V2.RoundTrip
import EosShard.V2.ConcurrentArchive
import EosShard.V2.Strings
import EosShard.V2.BlobIds
import EosShard.V2.PartialWrites
import EosShard.V2.BlobTable
import EosShard.ShardFile
import EosShard.V1.RoundTrip
import EosShard.V1.Layout
import EosShard.RecordNames
import EosShard.Interchange
import EosShard.CommitPoint
import EosShard.Descriptors
import EosShard.AsyncInit
import EosShard.Lifetime
import EosShard.Clients
import EosShard.BlobStream
import EosShard.Decompression
import EosShard.Dictionary.BloomFilter
import EosShard.Dictionary.Hashing
import EosShard.Dictionary.Filters
import EosShard.Dictionary.Format
import EosShard.Dictionary.Writer
import EosShard.Dictionary.Reader
import EosShard.Dictionary.Opening
import EosShard.Dictionary.Blocks
import EosShard.Dictionary.Calls
import EosShard.Dictionary.Partition
import EosShard.Dictionary.Search
import EosShard.Dictionary.Scan
import EosShard.Dictionary.Value
import EosShard.Dictionary.Lookup
import EosShard.Dictionary.PlainScan
import EosShard.Dictionary.Duplicates
import EosShard.PackedDictionary
import EosShard.Dictionary.CommitPoint
import EosShard.Contents
import EosShard.V2.Size
import EosShard.V1.Session
import EosShard.V2.Session
import EosShard.V2.RecordIds
import EosShard.NameSearch
import EosShard.Damage
