import Xv6.Lib.Rely
import Xv6.LogMachine
import Xv6.Proofs.Cache
import Xv6.Proofs.Coherent
import Xv6.Proofs.LogThread
import Xv6.Proofs.Phases
import Xv6.Proofs.Commit
import Xv6.Proofs.Recovery
import Xv6.Proofs.Clients
import Xv6.Proofs.LogSafety
import Xv6.Proofs.Atomicity
import Xv6.Proofs.Admission
import Xv6.Proofs.Pinned
import Xv6.Lib.Free
import Xv6.Kernel
import Xv6.Fs
import Xv6.SysFile
import Xv6.Store
import Xv6.System
import Xv6.Image
import Xv6.Proofs.Explained
import Xv6.Proofs.LinkCounts
import Xv6.Proofs.Shape
import Xv6.Proofs.Failing
import Xv6.Proofs.Pipe
import Xv6.Proofs.Kills
import Xv6.Proofs.Lifecycle
import Xv6.Proofs.BadPath
import Xv6.Proofs.FileContent
import Xv6.Proofs.Seek
import Xv6.Proofs.ReadCount
import Xv6.Proofs.Bitmap
import Xv6.Proofs.CopyStr
import Xv6.Proofs.Exec
import Xv6.Proofs.Grep
import Xv6.Proofs.GrepLoop
import Xv6.Proofs.Qsort
import Xv6.Proofs.LineReader
import Xv6.Proofs.Script
import Xv6.Proofs.Redirs
import Xv6.Proofs.Printf
import Xv6.Proofs.Uart
import Xv6.Proofs.Append
import Xv6.Proofs.Wc
import Xv6.Proofs.Resolution
import Xv6.Proofs.Residue
import Xv6.Proofs.BufList
import Xv6.Proofs.Console
import Xv6.Proofs.Reboot
import Xv6.Proofs.Names
import Xv6.Proofs.Filters
