import Xana.Lib.Runs
import Xana.Lib.Chain
import Xana.Lib.Gap
import Xana.Lib.Ring
import Xana.Lib.Lines
import Xana.Lib.Memory
import Xana.Memory.HeapLaws
import Xana.Memory.FreeAligned
import Xana.Memory.PageMap
import Xana.Memory.UserRange
import Xana.Memory.CloneLaws
import Xana.Memory.Spaces
import Xana.Memory.FirstFree
import Xana.Memory.Bitmap
import Xana.Memory.Expand
import Xana.Memory.Resize
import Xana.Process.Queue
import Xana.Process.PidOrder
import Xana.Process.Rounds
import Xana.Process.Kernel
import Xana.Process.Fork
import Xana.Process.Wait
import Xana.Process.Arguments
import Xana.Process.Loader
import Xana.Process.Brk
import Xana.Process.Segments
import Xana.Process.NewPages
import Xana.Process.Regions
import Xana.Process.Exit
import Xana.Interrupt.Switch
import Xana.Pipe.Fifo
import Xana.Filesystem.Descriptors
import Xana.Filesystem.Lowest
import Xana.Filesystem.Entries
import Xana.Filesystem.Parts
import Xana.Filesystem.Overrun
import Xana.Filesystem.Mounts
import Xana.Filesystem.WorkingDirectory
import Xana.Pipe.Shared
import Xana.Device.Duplicate
import Xana.Device.Names
import Xana.Device.Guards
import Xana.Device.LastClose
import Xana.Signal.Return
import Xana.Signal.UserHandler
import Xana.Syscall.Indices
import Xana.Syscall.Ready
import Xana.Tty.Editor
import Xana.Tty.Raw
import Xana.Tty.Stable
import Xana.Tty.Echo
import Xana.Keyboard.Fifo
import Xana.Keyboard.Read
import Xana.Keyboard.Scancodes
import Xana.Video.Cursor
import Xana.Video.Sequence
import Xana.Video.Sgr
import Xana.Video.File
import Xana.Ramdisk.RoundTrip
import Xana.Ramdisk.Stray
import Xana.Ramdisk.PartBuffer
import Xana.Ramdisk.Handle
import Xana.Ramdisk.Halts
import Xana.Ramdisk.Dirents
import Xana.Ramdisk.GetPath
import Xana.Lib.Forest
import Xana.Video.Scroll
import Xana.Video.Palette
import Xana.Video.Home
import Xana.Video.Page
import Xana.String.Printf
import Xana.Bootstrap.Display
import Xana.String.Move
import Xana.Bootstrap.MemoryMap
import Xana.Lib.Records
import Xana.Multiboot.Bootstrap
import Xana.Bootstrap.ElfLoader
import Xana.Process.Demand
import Xana.Bootstrap.Preboot
