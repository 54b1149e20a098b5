import JacobOS.Lib.BlockProgram
import JacobOS.CString
import JacobOS.Fs.Layout
import JacobOS.Fs.Sfs
import JacobOS.Fs.Bcache
import JacobOS.Fs.FlatDisk
import JacobOS.Lib.FirstMatch
import JacobOS.Fs.Objects
import JacobOS.Fs.Directory
import JacobOS.Fs.Namespace
import JacobOS.Fs.Operations
import JacobOS.Fs.Invariant
import JacobOS.Fs.Runs
import JacobOS.Fs.Contents
import JacobOS.Fs.Effects
import JacobOS.Fs.Reboot
import JacobOS.Fs.Faults
import JacobOS.Fs.FailedReads
import JacobOS.Fs.Mount
import JacobOS.Machine
import JacobOS.Memmove
import JacobOS.Cpu.Stack
import JacobOS.Kernel.Elf
import JacobOS.Kernel.ElfReads
import JacobOS.Kernel.ElfImage
import JacobOS.Cpu.Syscall
import JacobOS.Lib.FirstFit
import JacobOS.Lib.WordBits
import JacobOS.Mem.Pmm
import JacobOS.Mem.PmmRuns
import JacobOS.Mem.Kheap
import JacobOS.Mem.HeapRuns
import JacobOS.Mem.Callers
import JacobOS.Lib.Gaps
import JacobOS.Mem.HeapFit
import JacobOS.Mem.HeapUndo
import JacobOS.Mem.HeapAlign
import JacobOS.Mem.Stress
import JacobOS.Cpu.Interrupt
import JacobOS.Lib.Protection32
import JacobOS.Cpu.Tables
import JacobOS.Cpu.Traps
import JacobOS.Lib.InterruptController
import JacobOS.Cpu.Pic
import JacobOS.Cpu.Dispatch
import JacobOS.Kernel.Task
import JacobOS.Kernel.TaskRuns
import JacobOS.Kernel.RoundRobin
import JacobOS.Kernel.Ps
import JacobOS.Kernel.Green
import JacobOS.Kernel.GreenRuns
import JacobOS.Lib.TurnQueue
import JacobOS.Kernel.GreenTurns
import JacobOS.Kernel.Gt
import JacobOS.Kernel.Switch
import JacobOS.Kernel.Preemption
import JacobOS.Kernel.Usermode
import JacobOS.Kernel.Exec
import JacobOS.Kernel.ExecRuns
import JacobOS.Lib.Paging32
import JacobOS.Mem.Paging
import JacobOS.Kernel.Confinement
import JacobOS.Kernel.Shell
import JacobOS.Kernel.RmRec
import JacobOS.Kernel.Session
import JacobOS.Kernel.Reports
import JacobOS.Kernel.Move
import JacobOS.Kernel.Copy
import JacobOS.Lib.Fields
import JacobOS.Kernel.Words
import JacobOS.Kernel.Paths
import JacobOS.Numerals
import JacobOS.Kernel.Boot
import JacobOS.Kernel.PowerCycles
import JacobOS.Lib.FileTree
import JacobOS.Fs.TreeView
import JacobOS.Kernel.TreeCommands
import JacobOS.Kernel.TreeSession
import JacobOS.Kernel.TreeHistory
import JacobOS.Kernel.TreeLaws
import JacobOS.Kernel.TreeRestart
import JacobOS.Lib.FirstIndex
import JacobOS.Drivers.Ata
import JacobOS.Drivers.Keyboard
import JacobOS.Drivers.Screen
import JacobOS.Drivers.Terminal
import JacobOS.Drivers.Colors
import JacobOS.Drivers.Echo
import JacobOS.Drivers.Typing
import JacobOS.Kernel.Tty
