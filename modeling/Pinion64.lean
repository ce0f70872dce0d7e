import Pinion64.Lib.Run
import Pinion64.Lib.Chain
import Pinion64.Window
import Pinion64.System
import Pinion64.Reap
import Pinion64.Notification
import Pinion64.ThreadTable
import Pinion64.Pools
import Pinion64.Inherit
import Pinion64.KernelMemory
import Pinion64.PageAtomic
import Pinion64.PageFault
import Pinion64.Turns
import Pinion64.Relocate
import Pinion64.MapSplit
import Pinion64.Frames
import Pinion64.PageLens
import Pinion64.StateLens
import Pinion64.ConfigRender
import Pinion64.Running
import Pinion64.Routes
import Pinion64.Ledger
import Pinion64.FifoQueue
import Pinion64.ApiResolve
import Pinion64.Objects
import Pinion64.Hearing
import Pinion64.LoadPinion
import Pinion64.ModuleNames
import Pinion64.Handover
import Pinion64.Ccb
import Pinion64.KernelImage
import Pinion64.ContextSwitch
import Pinion64.Mutex
import Pinion64.AddressSpace
import Pinion64.LongMode
import Pinion64.Idt
import Pinion64.Undisturbed
import Pinion64.Footprint
import Pinion64.Lapic
import Pinion64.Lib.Driver
import Pinion64.Log
import Pinion64.Serial
import Pinion64.FirmwareTables
import Pinion64.GateBytes
import Pinion64.Resumption
import Pinion64.SelfSuspension
