import Xv6.Lib.Run
import Xv6.Lib.Replay
import Xv6.Log.Reservation
import Xv6.Log.Atomicity
import Xv6.Proc.Kill
import Xv6.Proc.LifeCycle
import Xv6.Proc.Pid
import Xv6.Lib.Ownership
import Xv6.Fs.Contents
import Xv6.Fs.ShortWrite
import Xv6.Fs.Budget
import Xv6.Fs.SharedWrite
import Xv6.Fs.Reading
import Xv6.Sleep.Wakeful
import Xv6.Sleep.Consumed
import Xv6.Sleep.Sleeplock
import Xv6.Bio.Cache
import Xv6.Icache.Fresh
import Xv6.Dir.Map
import Xv6.Fs.Nodes
import Xv6.Sched.Wakeup
import Xv6.Sched.Nesting
import Xv6.Console.Line
import Xv6.Console.Uart
import Xv6.Sh.Strings
import Xv6.Sh.Run
import Xv6.Umalloc.Request
import Xv6.Exec.AllOrNothing
import Xv6.Virtio.Requests
import Xv6.Grep.Lines
import Xv6.Mem.Memmove
import Xv6.Sys.Elements
import Xv6.Printf.Realign
import Xv6.Printf.Atoi
import Xv6.Wc.Counts
