import AllocHook.Accounting
import AllocHook.Dumps
import AllocHook.LeakComparison
import AllocHook.PeakClasses
import AllocHook.FailedCalls
import AllocHook.HeapMirror
import AllocHook.SharedBuffers
import AllocHook.GpuMappings
import AllocHook.Mappings
import AllocHook.ExitBarrier
import AllocHook.DumpSignal
import AllocHook.SelfCalls
import AllocHook.RealSizes
import AllocHook.PeakThreshold
import AllocHook.Errno
import AllocHook.Resolution
import AllocHook.EmptyStacks
import AllocHook.StackIndex
import AllocHook.StackMemory
import AllocHook.LiveDump
import AllocHook.Unwindstack.MemoryCache
import AllocHook.Unwindstack.EhFrameHdr
import AllocHook.Unwindstack.Symbols
