import Landaux.Lib.Bitmap
import Landaux.Lib.Bytes
import Landaux.Lib.Machine
import Landaux.Drivers.Keyboard
import Landaux.Drivers.ConsoleRead
import Landaux.Drivers.Block
import Landaux.Mem
import Landaux.Mm.Heap
import Landaux.Mm.HeapTiling
import Landaux.Mm.HeapRuns
import Landaux.Mm.HeapFit
import Landaux.Mm.HeapEnds
import Landaux.Mm.Pmm
import Landaux.Mm.AreaRing
import Landaux.Mm.PmmFree
import Landaux.Mm.MapPage
import Landaux.Kernel.Boot
import Landaux.Kernel.Descriptors
import Landaux.Kernel.Console
import Landaux.Kernel.PrintfCalls
import Landaux.Kernel.CloneAreas
import Landaux.Kernel.ProcessRuns
import Landaux.Fs.Balance
import Landaux.Fs.BootImg
import Landaux.Fs.OpenErrors
import Landaux.Fs.TrailingSlash
import Landaux.Fs.NullCalls
import Landaux.Fs.NameLengths
import Landaux.Fs.NextComponent
import Landaux.Fs.Dirents
import Landaux.Fs.DevfsRuns
import Landaux.Fs.MountedDevfs
import Landaux.Fs.Contents
import Landaux.Fs.DataBuffers
import Landaux.Fs.FileBounds
import Landaux.Fs.Handles
import Landaux.Fs.LastName
import Landaux.Fs.Locate
import Landaux.Fs.Namespace
import Landaux.Fs.Refinement
import Landaux.Fs.OneRamfs
import Landaux.Kernel.ExecErrors
import Landaux.Kernel.ForkErrors
import Landaux.Kernel.Image
import Landaux.Kernel.Isolation
import Landaux.Kernel.Ownership
import Landaux.Kernel.SharedPages
import Landaux.Kernel.Tlb
import Landaux.Kernel.Symbols
import Landaux.Kernel.RoundRobin
import Landaux.Kernel.Sleep
import Landaux.Kernel.WaitQueue
import Landaux.Strings.Compare
import Landaux.Strings.Copying
import Landaux.Strings.Memmove
import Landaux.Strings.PathNames
import Landaux.Kernel.Lists
import Landaux.Kernel.Magic
import Landaux.Kernel.MappedFiles
import Landaux.Kernel.Irq
import Landaux.Kernel.Switch
import Landaux.Kernel.BootMemory
import Landaux.Kernel.HeapMemory
