import Chestnut.Base
import Chestnut.Lib.Ring
import Chestnut.Lib.Walk
import Chestnut.Pages.Model
import Chestnut.Pages.FreeList
import Chestnut.Pages.Collect
import Chestnut.Pages.Boot
import Chestnut.Lib.Reach
import Chestnut.Pages.Supply
import Chestnut.Pages.Runs
import Chestnut.Pages.Requests
import Chestnut.Pages.Whole
import Chestnut.Slab.Model
import Chestnut.Slab.Bitmap
import Chestnut.Slab.Classes
import Chestnut.Slab.Invariant
import Chestnut.Slab.Slots
import Chestnut.Slab.PageUse
import Chestnut.Slab.Lifecycle
import Chestnut.Slab.Ops
import Chestnut.Slab.Kernel
import Chestnut.Slab.Runs
import Chestnut.Slab.Safety
import Chestnut.Slab.Accounting
import Chestnut.Slab.Leak
import Chestnut.Lib.Radix
import Chestnut.Paging.Processor
import Chestnut.Paging.Model
import Chestnut.Paging.Entries
import Chestnut.Paging.Tree
import Chestnut.Paging.Sight
import Chestnut.Paging.BootTable
import Chestnut.Paging.PageArray
import Chestnut.Paging.Mapping
import Chestnut.Paging.Kernel
import Chestnut.Paging.Walk
import Chestnut.Paging.Agree
import Chestnut.Paging.Access
import Chestnut.Paging.Descent
import Chestnut.Paging.MapPage
import Chestnut.Slab.Exhaustion
import Chestnut.Slab.Sizes
import Chestnut.Slab.Retention
import Chestnut.Lib.Seqlock
import Chestnut.Clock.Model
import Chestnut.Clock.Torn
import Chestnut.Clock.Monotone
import Chestnut.Clock.Stable
import Chestnut.Clock.Accuracy
import Chestnut.Clock.Live
import Chestnut.Lib.Words
import Chestnut.Lib.X86
import Chestnut.Interrupt.Model
import Chestnut.Interrupt.Saved
import Chestnut.Interrupt.Transparency
import Chestnut.IoApic.Model
import Chestnut.IoApic.Entries
import Chestnut.Lib.Bytes
import Chestnut.Lib.Loop
import Chestnut.Multiboot.Model
import Chestnut.Multiboot.Tags
import Chestnut.Multiboot.MemoryMap
import Chestnut.Multiboot.MapTag
import Chestnut.Lib.Copy
import Chestnut.Vector.Model
import Chestnut.Vector.Insert
import Chestnut.Vector.Growth
import Chestnut.Vector.Remove
import Chestnut.Slab.Holdings
import Chestnut.Vector.Heap
import Chestnut.Vector.Owners
import Chestnut.Acpi.Model
import Chestnut.Acpi.Madt
import Chestnut.Acpi.Walks
import Chestnut.Acpi.Discovery
import Chestnut.Acpi.Tables
import Chestnut.Interrupt.Gates
import Chestnut.Pci.Model
import Chestnut.Pci.Space
import Chestnut.Console.Terminal
import Chestnut.Console.Screen
import Chestnut.Console.Mirror
import Chestnut.Lib.Numeral
import Chestnut.Console.Vprintf
import Chestnut.Console.Format
import Chestnut.Console.Render
import Chestnut.Acpi.Smp
import Chestnut.Acpi.Startup
import Chestnut.Lib.Rota
import Chestnut.Scheduler.Model
import Chestnut.Scheduler.Queues
import Chestnut.Slab.Domain
import Chestnut.ListNode.Model
import Chestnut.ListNode.Sequences
import Chestnut.ListNode.Refinement
import Chestnut.Slab.Records
import Chestnut.Slab.Footprint
import Chestnut.System.Drawn
import Chestnut.System.Memory
import Chestnut.System.Isolation
import Chestnut.System.KernelMain
import Chestnut.System.Devices
import Chestnut.Paging.AddressSpace
import Chestnut.Lib.Chain
import Chestnut.Interrupt.Chains
import Chestnut.Interrupt.Pic
import Chestnut.Interrupt.BringUp
import Chestnut.Interrupt.LocalApic
import Chestnut.Interrupt.Delivery
import Chestnut.Console.Serial
import Chestnut.Console.Sources
import Chestnut.Lib.CString
import Chestnut.Libc.Strings
import Chestnut.Libc.Buffers
