import BareMetalOS.Memory.BuddyRuns
import BareMetalOS.Memory.AllocatorRuns
import BareMetalOS.Memory.AnyCalls
import BareMetalOS.Boot.Reservation
import BareMetalOS.Boot.PathOffset
import BareMetalOS.Sched.Wakeups
import BareMetalOS.Sched.Stranded
import BareMetalOS.Sched.TimerOrder
import BareMetalOS.Sched.Tasks
import BareMetalOS.Trap.Delivery
import BareMetalOS.Files.Counts
import BareMetalOS.Files.Readers
import BareMetalOS.Files.Tmpfs
import BareMetalOS.Files.Overmount
import BareMetalOS.Files.Entries
import BareMetalOS.Memory.ChunkPools
import BareMetalOS.Boot.FrameArray
import BareMetalOS.Boot.PoolChoice
import BareMetalOS.Files.Transfers
import BareMetalOS.Files.Framebuffer
import BareMetalOS.Files.Encode
import BareMetalOS.Mmu.Copy
import BareMetalOS.Mmu.Release
import BareMetalOS.Mmu.VmaOrder
import BareMetalOS.Mmu.MapPages
import BareMetalOS.Mmu.MmapFailure
import BareMetalOS.Process.ForkFailure
import BareMetalOS.Process.SignalFrames
import BareMetalOS.Boot.Phandle
import BareMetalOS.Boot.ReservedMemory
import BareMetalOS.Files.Paths
import BareMetalOS.Files.Buffers
import BareMetalOS.Files.Dispatch
import BareMetalOS.Files.Created
import BareMetalOS.Files.OpenFailure
import BareMetalOS.Files.Strncpy
import BareMetalOS.Serial.RingBuffer
import BareMetalOS.Serial.LoadKernel
import BareMetalOS.Serial.Printf
import BareMetalOS.Boot.FramebufferPages
import BareMetalOS.Files.Walks
import BareMetalOS.Files.RamfsMount
import BareMetalOS.Process.Leaks
import BareMetalOS.Process.Lazy
import BareMetalOS.Process.Progress
import BareMetalOS.Process.Handlers
import BareMetalOS.Foundations.Circle
import BareMetalOS.Memory.Calls
import BareMetalOS.Process.Calls
import BareMetalOS.Process.KernelImage
import BareMetalOS.Sched.Heartbeat
import BareMetalOS.Heap.FreeLists
import BareMetalOS.Heap.ChunkPages
import BareMetalOS.Heap.FramebufferPages
import BareMetalOS.Sched.RoundRobin
import BareMetalOS.Serial.Readers
