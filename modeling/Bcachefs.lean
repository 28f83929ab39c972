import Bcachefs.Support.Bytes
import Bcachefs.Support.Iteration
import Bcachefs.Support.Flatten
import Bcachefs.Support.Acyclic
import Bcachefs.Support.BitFields
import Bcachefs.Support.Log
import Bcachefs.Support.Interleaving
import Bcachefs.Support.Orbit
import Bcachefs.Support.CString
import Bcachefs.Support.Patches
import Bcachefs.Memory
import Bcachefs.Format
import Bcachefs.NodeCore
import Bcachefs.ReaderCore
import Bcachefs.SuperblockLoad
import Bcachefs.SuperblockFields
import Bcachefs.BtreeRoot
import Bcachefs.TreeCore
import Bcachefs.DecodeCore
import Bcachefs.Roots
import Bcachefs.EntryScan
import Bcachefs.NodeScan
import Bcachefs.BSetChain
import Bcachefs.BSetBounds
import Bcachefs.NodeLog
import Bcachefs.BSetKeys
import Bcachefs.TreeScan
import Bcachefs.Traversal
import Bcachefs.NextValue
import Bcachefs.KeyNode
import Bcachefs.Encoding
import Bcachefs.ParseKey
import Bcachefs.ParseInverse
import Bcachefs.SingleNode
import Bcachefs.Directory
import Bcachefs.Extend
import Bcachefs.ExtentEntries
import Bcachefs.ExtendSectors
import Bcachefs.InlineData
import Bcachefs.DirentName
import Bcachefs.FileRanges
import Bcachefs.PartialScan
import Bcachefs.LogComposition
import Bcachefs.Termination
import Bcachefs.Interleaved
import Bcachefs.WalkCore
import Bcachefs.ImageOnly
import Bcachefs.Buffers
import Bcachefs.Loads
import Bcachefs.Ordered
import Bcachefs.Locality
import Bcachefs.Contents
import Bcachefs.NodeContents
import Bcachefs.Opening
import Bcachefs.FileSystem
import Bcachefs.ImageWriter
import Bcachefs.MainCore
import Bcachefs.Listing
import Bcachefs.Recovery
import Bcachefs.Unambiguous
import Bcachefs.Main
import Bcachefs.StoredListing
import Bcachefs.Accepted
