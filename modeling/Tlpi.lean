import Tlpi.Lib.Run
import Tlpi.Lib.Preorder
import Tlpi.Dup
import Tlpi.Initgroups
import Tlpi.Getpwnam
import Tlpi.Io.Rwv
import Tlpi.Io.Readv
import Tlpi.Io.Cp
import Tlpi.Io.Tee
import Tlpi.Io.AtomicAppend
import Tlpi.Xmalloc.Runs
import Tlpi.Xmalloc.FirstFit
import Tlpi.Xmalloc.Coalesce
import Tlpi.Xmalloc.Roundtrip
import Tlpi.Xmalloc.Large
import Tlpi.Xmalloc.Sizes
import Tlpi.Xmalloc.AlignRuns
import Tlpi.Setenv.Refine
import Tlpi.Setenv.Failures
import Tlpi.Setenv.Unset
import Tlpi.Setenv.Overwrite
import Tlpi.Setenv.Walk
import Tlpi.Setenv.Atomic
import Tlpi.Proctree.Model
import Tlpi.Proctree.Build
import Tlpi.Proctree.Links
import Tlpi.Proctree.Print
import Tlpi.Proctree.Scan
import Tlpi.Xmalloc.Tiles
import Tlpi.Proctree.Main
import Tlpi.Proclist
import Tlpi.Ipc.SvshmRuns
import Tlpi.Threads.ProdCondvarRuns
import Tlpi.Sockets.Rdwrn
import Tlpi.GetNum
import Tlpi.Sockets.Seqnum
import Tlpi.Threads.MultijoinRuns
import Tlpi.Procexec.MultiSigchld
