import CppNotes.Lib.Run
import CppNotes.Chan.Defs
import CppNotes.Chan.Fifo
import CppNotes.Chan.Close
import CppNotes.Chan.Print
import CppNotes.Chan.Capacity
import CppNotes.Chan.Wakeup
import CppNotes.Lib.ByteFile
import CppNotes.Uring.Defs
import CppNotes.Lib.Pool
import CppNotes.Uring.Bookkeeping
import CppNotes.Uring.Copy
import CppNotes.Uring.Completion
import CppNotes.Iotool.BlockIo
import CppNotes.Lib.Counter
import CppNotes.Iotool.Blocks
import CppNotes.Iotool.Ranges
import CppNotes.Iotool.Sectors
import CppNotes.Iotool.Pattern
import CppNotes.Iotool.Fill
import CppNotes.Iotool.Schedules
import CppNotes.Lib.Writes
import CppNotes.Iotool.Aio
import CppNotes.Iotool.AioWait
import CppNotes.Iotool.AioFile
import CppNotes.Iotool.AioEnds
import CppNotes.Iotool.CheckArgs
import CppNotes.Iotool.Arguments
import CppNotes.Lib.Groups
import CppNotes.Iotool.Reads
import CppNotes.Iotool.ReadBytes
import CppNotes.Iotool.Dump
import CppNotes.Iotool.DumpRows
import CppNotes.Lib.Hex
import CppNotes.Iotool.DumpText
import CppNotes.Iotool.Headers
import CppNotes.Lib.Cover
import CppNotes.Iotool.Reports
import CppNotes.Aio.Epoll
import CppNotes.Atomic.Handoff
import CppNotes.Misc.Maps
import CppNotes.Misc.OctalMode
import CppNotes.Misc.SortedInsert
import CppNotes.Misc.Align
import CppNotes.Misc.Sha1Text
import CppNotes.Lib.Text
import CppNotes.Lib.Records
import CppNotes.Lib.Linked
import CppNotes.Lib.Chains
import CppNotes.Db.Defs
import CppNotes.Db.Format
import CppNotes.Db.Disk
import CppNotes.Db.Search
import CppNotes.Db.Update
import CppNotes.Db.Map
import CppNotes.Db.Scan
import CppNotes.Lib.Locks
import CppNotes.Lib.Window
import CppNotes.Lib.StoreBuffer
import CppNotes.Db.Locks
import CppNotes.Db.Separator
import CppNotes.Threads.RefCount
import CppNotes.Threads.RefCountInv
import CppNotes.Threads.RefCountStep
import CppNotes.Threads.RefCountSafe
import CppNotes.Iotool.Main
import CppNotes.Iotool.Session
import CppNotes.Net.StrCli
import CppNotes.Net.SendRecv
import CppNotes.Atomic.StoreLoad
