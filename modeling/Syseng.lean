import Syseng.Support.Machine
import Syseng.Support.Ownership
import Syseng.Support.Chain
import Syseng.CForProgrammers.LinkedListRuns
import Syseng.ModernCpp.ScopedFd
import Syseng.ModernCpp.OwnedBlocks
import Syseng.ModernCpp.UniqueBuffer
import Syseng.ModernCpp.Buffer
import Syseng.ModernCpp.BufferCalls
import Syseng.ModernCpp.BufferRuns
import Syseng.StlInternals.PoolAllocator
import Syseng.CForProgrammers.IntVec
import Syseng.CForProgrammers.IntVecRuns
import Syseng.CForProgrammers.IntVecFailures
import Syseng.CForProgrammers.Entity
import Syseng.BitsAndBytes.FloatBits
import Syseng.BitsAndBytes.FloatValues
import Syseng.ModernCpp.Aliasing
import Syseng.CForProgrammers.IntVecBounds
import Syseng.CForProgrammers.Strings
import Syseng.CForProgrammers.StringLengths
import Syseng.BitsAndBytes.Bits
import Syseng.CForProgrammers.StringCompare
import Syseng.CForProgrammers.StringAlgebra
import Syseng.CForProgrammers.StringReverse
import Syseng.CForProgrammers.EntityArithmetic
import Syseng.CForProgrammers.EntityStatus
import Syseng.ModernCpp.Primitives
import Syseng.StlInternals.ContainerBenchmark
import Syseng.OrderBook.PriceLevels
import Syseng.CForProgrammers.Arrays
import Syseng.Networking.FixFramer
import Syseng.OrderBook.EventStream
import Syseng.Support.Scopes
import Syseng.ModernCpp.ScopeGuard
import Syseng.ModernCpp.Unwinding
import Syseng.Networking.StreamTransfer
import Syseng.Tools.CheckRunner
import Syseng.Networking.FixFields
import Syseng.CForProgrammers.IntVecCost
import Syseng.StlInternals.FlatPtrMap
import Syseng.StlInternals.OtherContainers
import Syseng.Support.Double
import Syseng.Support.Quantile
import Syseng.Tools.Bench
import Syseng.OrderBook.TopText
import Syseng.Concurrency.SpscQueue
import Syseng.BitsAndBytes.DnsPrint
import Syseng.CForProgrammers.Hello
import Syseng.BitsAndBytes.FloatRuns
import Syseng.CForProgrammers.StringStore
import Syseng.CForProgrammers.StringStoreRuns
import Syseng.CForProgrammers.IntVecShared
import Syseng.Networking.TransferProgress
