import CoinData.Runs
import CoinData.Results
import CoinData.Bytes
import CoinData.LinkedList
import CoinData.Cover
import CoinData.Dyadic
import CoinData.Buddy
import CoinData.BuddyHeaders
import CoinData.BuddyPool
import CoinData.BuddyRefinement
import CoinData.BuddyRelease
import CoinData.BuddyAllocate
import CoinData.BuddySystem
import CoinData.BuddySiblings
import CoinData.BuddyRequests
import CoinData.BuddyRegion
import CoinData.Maps
import CoinData.ObjectManager
import CoinData.ObjectReferences
import CoinData.ObjectSections
import CoinData.ObjectSystem
import CoinData.ObjectLifetime
import CoinData.RemovedObjects
import CoinData.ObjectMonitor
import CoinData.ObjectTypes
import CoinData.Ownership
import CoinData.ObjectThreads
import CoinData.ObjectSession
import CoinData.SharedPtr
import CoinData.SharedPtrCounts
import CoinData.SharedPtrOperations
import CoinData.SharedPtrRefinement
import CoinData.RobustMutex
import CoinData.LockGuard
import CoinData.LockArea
import CoinData.BoundedFifo
import CoinData.LockFreeQueue
import CoinData.ThreadBindPool
import CoinData.FileLock
import CoinData.AnyData
import CoinData.CircularBuffer
import CoinData.CircularBufferCells
import CoinData.RingMessages
import CoinData.Service
import CoinData.ServiceRequests
import CoinData.Subscriber
import CoinData.SubscriberOffline
import CoinData.UpdateFlags
import CoinData.SharedNames
import CoinData.Channal
import CoinData.ChannalUpdates
import CoinData.Communicators
import CoinData.SpinOnce
import CoinData.BuddyAttach
import CoinData.BuddyDoubleFree
import CoinData.ObjectReset
import CoinData.Connections
import CoinData.Deadlines
import CoinData.NullHandles
import CoinData.PoolCalls
import CoinData.Redirection
import CoinData.PoolWakeups
import CoinData.KeyedSegments
import CoinData.ShmAttach
import CoinData.PathTrees
import CoinData.AnyDataPaths
import CoinData.AnyDataText
import CoinData.Separators
import CoinData.Communications
import CoinData.NodePaths
import CoinData.DateTimes
import CoinData.Strings
import CoinData.Environment
import CoinData.EnvironmentLaws
import CoinData.ExecVectors
import CoinData.Executor
import CoinData.ExecutorInvariant
import CoinData.ExecutorReports
import CoinData.ExecutorSignals
import CoinData.NodeMonitor
import CoinData.NodeEvents
import CoinData.BuddyLists
import CoinData.BuddyMerges
import CoinData.ShiftRegister
import CoinData.Crc32
import CoinData.Inevitability
import CoinData.PoolShutdown
import CoinData.SubscriberDelivery
import CoinData.NodeLifetime
import CoinData.Simulation
import CoinData.LatestValue
import CoinData.ExecutorOutput
import CoinData.LockOrder
import CoinData.LockHierarchy
import CoinData.ServiceAnswers
import CoinData.EventPool
import CoinData.WatchedNodes
