import NochOS.Ide.Confinement
import NochOS.Interrupt.Delivery
import NochOS.Library.Slots
import NochOS.Network.Delivery
import NochOS.Aes.RoundTrip
import NochOS.Bitmap.Predicates
import NochOS.Process.VideoPage
import NochOS.Process.RoundRobin
import NochOS.Process.Foreground
import NochOS.Process.Bracket
import NochOS.Process.Descriptors
import NochOS.Process.Dispatch
import NochOS.Process.FailedExecute
import NochOS.Process.CommandLine
import NochOS.Process.Startup
import NochOS.Memory.Isolation
import NochOS.Terminal.Screens
import NochOS.Terminal.Input
import NochOS.Terminal.Mirror
import NochOS.Terminal.Regions
import NochOS.Terminal.LineEditing
import NochOS.Terminal.Splitting
import NochOS.Terminal.Pointer
import NochOS.Terminal.ScrollBack
import NochOS.Signal.Queue
import NochOS.Signal.Frame
import NochOS.Signal.Handlers
import NochOS.Signal.Privilege
import NochOS.Lists.Intrusive
import NochOS.ModFs.ReadData
import NochOS.Network.PacketBuffer
import NochOS.Ext2.Append
import NochOS.Ext2.Space
import NochOS.Ext2.Indirect
import NochOS.Ext2.Groups
import NochOS.Ext2.DirBlocks
import NochOS.Ext2.RemoveWalk
import NochOS.Ext2.FailedMkdir
import NochOS.Ext2.DeviceErrors
import NochOS.Ext2.Seek
import NochOS.Ext2.RemoveDir
import NochOS.Aes.Standard
import NochOS.Aes.ColumnMixing
import NochOS.Vfs.Encryption
import NochOS.Vfs.CryptBuffer
import NochOS.Vfs.NameBuffers
import NochOS.Vfs.PathFrees
import NochOS.Vfs.WorkingDir
import NochOS.Pci.Enumeration
import NochOS.Clock.RealTime
import NochOS.Clock.Interval
