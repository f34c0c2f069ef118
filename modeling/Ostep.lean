import Ostep.ReferenceCounts
import Ostep.WishJobs
import Ostep.WishInput
import Ostep.WishArgs
import Ostep.WunzipAccepts
import Ostep.WzipFinishes
import Ostep.ReadCount
import Ostep.ProcFamily
import Ostep.PipeFifo
import Ostep.LogReservation
import Ostep.GroupCommit
import Ostep.BufferCoherence
import Ostep.LogCrash
import Ostep.BlockOwnership
import Ostep.InodeLocks
import Ostep.MkfsConsistent
import Ostep.SleepLock
import Ostep.CpuHandover
import Ostep.PageSystem
import Ostep.GrowProcess
import Ostep.ArgStack
import Ostep.MallocRing
import Ostep.PathLookup
import Ostep.FsHistory
import Ostep.Memmove
import Ostep.DeallocPages
import Ostep.ConsoleInput
import Ostep.IdeQueue
import Ostep.WishSplit
import Ostep.GrepLanguage
import Ostep.ShRun
import Ostep.SharedWrites
import Ostep.Isolation
import Ostep.DirNames
import Ostep.TickSleep
