import AesdChar.Lib.Runs
import AesdChar.Lib.Segments
import AesdChar.Lib.Heap
import AesdChar.Lib.Groups
import AesdChar.Lib.Pieces
import AesdChar.Lib.Circular
import AesdChar.CircularBuffer
import AesdChar.RingFifo
import AesdChar.FifoHistory
import AesdChar.Driver
import AesdChar.WriteSteps
import AesdChar.Lookup
import AesdChar.LookupRange
import AesdChar.CommandLog
import AesdChar.Refinement
import AesdChar.WriteRefinement
import AesdChar.WriteHistory
import AesdChar.CommandTerminators
import AesdChar.WriteFailures
import AesdChar.Representation
import AesdChar.Ledger
import AesdChar.Seek
import AesdChar.DeviceSize
import AesdChar.DeviceReads
import AesdChar.BoundedRead
import AesdChar.ReadFailures
import AesdChar.FilePosition
import AesdChar.Lib.LockTrace
import AesdChar.LockDiscipline
import AesdChar.ProcessPacket
import AesdChar.Concurrent
import AesdChar.Lib.CString
import AesdChar.ClientConnection
import AesdChar.ReceiveBuffer
import AesdChar.Framing
import AesdChar.FramingCondition
import AesdChar.ReplyLoop
import AesdChar.ReadErrors
import AesdChar.Lib.Decimal
import AesdChar.SeekCommand
import AesdChar.DataFile
import AesdChar.Lib.Ownership
import AesdChar.ConnectionResources
import AesdChar.ConnectionQueue
import AesdChar.Lib.Simulation
import AesdChar.LogCalls
import AesdChar.Interleaving
import AesdChar.InFlight
import AesdChar.LockedSections
import AesdChar.InterleavedCalls
import AesdChar.UndisturbedCalls
import AesdChar.CallsReturn
import AesdChar.LatePrint
import AesdChar.Lib.Chain
import AesdChar.TailQueue
import AesdChar.QueueRuns
import AesdChar.LinkedServer
import AesdChar.Lib.Mutex
import AesdChar.Lib.Endless
import AesdChar.ServerThreads
import AesdChar.DrainEnds
import AesdChar.FileReplies
import AesdChar.DeviceConnection
import AesdChar.ServedClients
import AesdChar.Foreach
import AesdChar.InterleavedLedger
import AesdChar.Lib.Users
import AesdChar.ChatThreads
import AesdChar.SharedDevice
import AesdChar.SharedReplies
import AesdChar.SharedLines
import AesdChar.SharedLedger
import AesdChar.RepliesEnd
