import Mugglec.Base.Str
import Mugglec.Memory.BytesBufferMark
import Mugglec.Memory.MemoryPoolRing
import Mugglec.Sync.ChannelRoom
import Mugglec.Sync.Synclock
import Mugglec.Sync.ArrayBlockingQueueLinear
import Mugglec.Sync.DoubleBufferWake
import Mugglec.Sync.RingBufferRead
import Mugglec.Sync.MaRingResources
import Mugglec.Sync.ShmRingMark
import Mugglec.Sync.ShmRingRoom
import Mugglec.Sync.ShmRingOpen
import Mugglec.Sync.Spinlock
import Mugglec.Memory.TsMemoryPoolRing
import Mugglec.Memory.PoolLayout
import Mugglec.Event.EvloopExitHeard
import Mugglec.Event.EvloopExitSettled
import Mugglec.Event.EvloopPollCount
import Mugglec.Event.EvloopSelectSet
import Mugglec.Net.SocketEvloopRelease
import Mugglec.Net.SocketEvloopAdd
import Mugglec.Memory.PointerSlotLive
import Mugglec.Dsaa.AvlTreeClear
import Mugglec.Dsaa.HashTableMap
import Mugglec.Dsaa.SortEmpty
import Mugglec.Dsaa.SortHeap
import Mugglec.Dsaa.LinkedListSeq
import Mugglec.Dsaa.ArrayListSeq
import Mugglec.Dsaa.TimeWheelSchedule
import Mugglec.Dsaa.TimeWheelClock
import Mugglec.Log.AsyncLoggerRelease
import Mugglec.Crypt.AesKeys
import Mugglec.Crypt.CipherModes
import Mugglec.Crypt.DesSwitch
import Mugglec.Crypt.TripleDes
import Mugglec.Dsaa.TrieIndex
import Mugglec.Time.FlowController
import Mugglec.Log.FileRotateCount
import Mugglec.Log.FileTimeRotAccepted
import Mugglec.Sync.RefCntLifetime
import Mugglec.Base.StrNum
import Mugglec.Encoding.Hex
import Mugglec.Net.SocketNtop
import Mugglec.Net.SocketEvloopPipe
import Mugglec.Os.PathJoin
import Mugglec.Os.PathNorm
import Mugglec.Log.LogFmt
