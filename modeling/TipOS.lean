import TipOS.Vm.Brk
import TipOS.Process.Reap
import TipOS.Ipc.Duplicates
import TipOS.Exec.Replace
import TipOS.Vm.Protect
import TipOS.Memory.Sizes
import TipOS.Vm.MmapFails
import TipOS.Loader.ChunkTable
import TipOS.Ipc.Connections
import TipOS.Fs.Writes
import TipOS.Io.Readv
import TipOS.Io.Poll
import TipOS.Io.Random
import TipOS.Fs.Leaks
import TipOS.Fs.FreeChain
import TipOS.Fs.Initramfs
import TipOS.Fs.ReadFile
import TipOS.Libc.Printf
import TipOS.Libc.Stdlib
import TipOS.Drivers.VirtioGpu
import TipOS.Fs.Names
import TipOS.Fs.DirBlock
import TipOS.Progs.Graphy
