import KernelTravel.Buf.Replacement
import KernelTravel.Drivers.CpuTime
import KernelTravel.Drivers.TimerLinks
import KernelTravel.Drivers.TimerRuns
import KernelTravel.Ext4.BallocRuns
import KernelTravel.Ext4.BlockBytes
import KernelTravel.Ext4.DirIterator
import KernelTravel.Ext4.GroupInit
import KernelTravel.Ext4.Indirect
import KernelTravel.Ext4.MountGate
import KernelTravel.Ext4.Unwritten
import KernelTravel.Fat32.ClusterAlloc
import KernelTravel.Fat32.LockDepth
import KernelTravel.Fat32.LongName
import KernelTravel.Fat32.PointerTable
import KernelTravel.Fs.MountTable
import KernelTravel.Fs.Open
import KernelTravel.Fs.PathText
import KernelTravel.Fs.PipeRuns
import KernelTravel.Fs.PipeTable
import KernelTravel.Fs.PollReady
import KernelTravel.Fs.Position
import KernelTravel.Kernel.Sigreturn
import KernelTravel.Mm.BuddySplit
import KernelTravel.Mm.KernelPool
import KernelTravel.Mm.Memblock
import KernelTravel.Mm.SeedPages
import KernelTravel.Mm.VmaPlaces
import KernelTravel.Thread.LockRuns
import KernelTravel.Thread.SchedRuns
import KernelTravel.Thread.SemaRuns
import KernelTravel.Thread.Sleep
import KernelTravel.Userprog.BrkCalls
import KernelTravel.Userprog.Isolation
import KernelTravel.Userprog.LoadEnds
import KernelTravel.Userprog.MapLaw
import KernelTravel.Userprog.MapLock
import KernelTravel.Userprog.MmapFile
import KernelTravel.Userprog.Release
import KernelTravel.Userprog.TaskName
