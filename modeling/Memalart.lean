import Memalart.AlignedMapping
import Memalart.Alignment
import Memalart.BTree.Counters
import Memalart.BTree.DoubleEnded
import Memalart.BlockMemory
import Memalart.BufferSizes
import Memalart.ExtraLargeRuns
import Memalart.ExtraLargeSizes
import Memalart.FastPath
import Memalart.FreeChunks
import Memalart.LimitCounter
import Memalart.LimitCounterProgress
import Memalart.MappedMemory
import Memalart.MemoryTotals
import Memalart.Occupancy
import Memalart.PublicRuns
import Memalart.ReentrantVec
import Memalart.RegionGeometry
import Memalart.Registered
import Memalart.RemoteFreeProgress
import Memalart.RemoteFreeSafety
import Memalart.RequestArithmetic
import Memalart.Routing
import Memalart.SizeClosure
import Memalart.Stats
import Memalart.UnusedMemory
import Memalart.UsedObjectsFixed
import Memalart.ChainMemory
import Memalart.Lib.ByteMemory
import Memalart.PageMappings
import Memalart.SizeMerging
import Memalart.VecInOs
import Memalart.RemoteFreeLink
