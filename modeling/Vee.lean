import Vee.Comm.TcpAsyncRead
import Vee.Comm.TcpPeer
import Vee.Comm.TcpRead
import Vee.Comm.TcpServer
import Vee.Comm.TcpStream
import Vee.Comm.TcpWrite
import Vee.Comm.UdpAsync
import Vee.Comm.UdpPeer
import Vee.Comm.UdpStream
import Vee.Delegate.Call
import Vee.Delegate.Delegate
import Vee.Delegate.Merge
import Vee.Delegate.Reentrant
import Vee.Delegate.Registry
import Vee.Delegate.Shared
import Vee.Enum.Declaration
import Vee.Enum.Names
import Vee.Generic.Conversion
import Vee.Generic.GreaterThan
import Vee.Generic.UnsignedInteger
import Vee.Generic.WideComparator
import Vee.Group.Admission
import Vee.Group.Announcement
import Vee.Group.Balance
import Vee.Group.Completion
import Vee.Group.Coordinated
import Vee.Group.Counter
import Vee.Group.Search
import Vee.Group.System
import Vee.Helper.Bitmagic
import Vee.Helper.Strmagic
import Vee.Io.Port
import Vee.Lib.ByteMemory
import Vee.Lib.Census
import Vee.Lib.Charge
import Vee.Lib.Circular
import Vee.Lib.Fifo
import Vee.Lib.Keyed
import Vee.Lib.Linearizable
import Vee.Lib.LittleEndian
import Vee.Lib.Loads
import Vee.Lib.Loop
import Vee.Lib.Transition
import Vee.Lib.Strip
import Vee.Lib.Pour
import Vee.Lib.Proactor
import Vee.Lib.Record
import Vee.Lib.Section
import Vee.Lib.Traversal
import Vee.Locked.Delivery
import Vee.Locked.Queue
import Vee.Locked.QueueAlone
import Vee.Locked.Sections
import Vee.Locked.SpinLock
import Vee.Lockfree.AtQueue
import Vee.Lockfree.AtQueueAlone
import Vee.Lockfree.AtQueueSystem
import Vee.Lockfree.BlockOwnership
import Vee.Lockfree.Conservation
import Vee.Lockfree.Emptiness
import Vee.Lockfree.Ledger
import Vee.Lockfree.Progress
import Vee.Lockfree.Queue
import Vee.Lockfree.SingleProducer
import Vee.Lockfree.Slots
import Vee.Lockfree.SpscRing
import Vee.Lockfree.Stack
import Vee.Lockfree.StackAlone
import Vee.Lockfree.StackShape
import Vee.Lockfree.StackSystem
import Vee.Lockfree.Tickets
import Vee.Lockfree.WaitFree
import Vee.Worker.Agreed
import Vee.Worker.Dummy
import Vee.Worker.Handshake
import Vee.Worker.Lifetime
import Vee.Worker.Order
import Vee.Worker.Requests
import Vee.Worker.Serving
import Vee.Worker.Shutdown
import Vee.Worker.SingleRunner
import Vee.Worker.Steady
import Vee.Worker.Steps
import Vee.Worker.System
import Vee.Lockfree.Contention
import Vee.Lockfree.StackProgress
