import Xv6.Param
import Xv6.Lib.Flags
import Xv6.Kalloc
import Xv6.Vm.Walk
import Xv6.Proc.Defs
import Xv6.Vm.Uvm
import Xv6.Vm.Dealloc
import Xv6.Vm.Map
import Xv6.Proc.Grow
import Xv6.Vm.Protect
import Xv6.Vm.UserMem
import Xv6.Syscall.Args
import Xv6.Syscall.File
import Xv6.Lib.Run
import Xv6.Proc.Table
import Xv6.Proc.Step
import Xv6.Proc.Pid
import Xv6.Proc.Sched
import Xv6.Fs.Log
import Xv6.Fs.LogOp
import Xv6.Fs.LogSpace
import Xv6.Fs.Inode
import Xv6.Fs.Dir
import Xv6.Fs.Mkfs
import Xv6.Syscall.Sysfile
import Xv6.Lib.Ring
import Xv6.Pipe
import Xv6.Console
import Xv6.User.Umalloc
import Xv6.String
import Xv6.Print
import Xv6.User.Ulib
import Xv6.User.Grep
import Xv6.User.GrepLoop
import Xv6.Fs.ICache
import Xv6.Fs.Bio
import Xv6.File
import Xv6.Syscall.Fd
import Xv6.Syscall.FdWf
import Xv6.Fs.Content
import Xv6.Fs.Space
import Xv6.Fs.DirMap
import Xv6.Syscall.Filewrite
import Xv6.Syscall.Open
import Xv6.Lib.Chain
import Xv6.Fs.Ide
import Xv6.User.ShLex
import Xv6.User.Sh
import Xv6.User.ShParse
import Xv6.User.ShNul
import Xv6.User.ShRun
import Xv6.User.Printf
import Xv6.User.Wc
import Xv6.Boot
import Xv6.Vm.Exec
