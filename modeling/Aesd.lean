import Aesd.MachineWord
import Aesd.BoundedRing
import Aesd.OffsetLookup
import Aesd.BlockHeap
import Aesd.FallibleRun
import Aesd.CircularBuffer
import Aesd.CharDriver
import Aesd.DriverLog
import Aesd.StreamCut
import Aesd.WriteReassembly
import Aesd.Reading
import Aesd.CommandSeek
import Aesd.Ownership
import Aesd.ConcurrentReaders
import Aesd.BufferedReader
import Aesd.DeviceStream
import Aesd.CString
import Aesd.SocketServer
import Aesd.ReplyPieces
import Aesd.ServerReplies
import Aesd.Requests
import Aesd.SeekResults
import Aesd.Reception
import Aesd.ReceiveBuffer
import Aesd.ReceiveErrors
import Aesd.Listener
import Aesd.ProcessLaunch
import Aesd.ThreadReaping
import Aesd.WordMemory
import Aesd.QueueList
import Aesd.ThreadRecords
import Aesd.LockedSections
import Aesd.DeviceThreads
import Aesd.ConnectionThreads
import Aesd.FollowingReader
import Aesd.UnlockedSeek
import Aesd.LogService
import Aesd.FailingConnections
import Aesd.DataFile
import Aesd.WholeServer
import Aesd.OutputDescriptors
import Aesd.MutexThreads
