import HookKernel.Lib.Run
import HookKernel.Lib.Fifo
import HookKernel.Lib.ListHead
import HookKernel.Lib.NameList
import HookKernel.Lib.Files
import HookKernel.Lib.Renames
import HookKernel.Lib.Memory
import HookKernel.Lib.InTurn
import HookKernel.Lib.Observe
import HookKernel.Lib.Buffer
import HookKernel.Lib.Decimal
import HookKernel.Lib.Wrap
import HookKernel.Lib.LittleEndian
import HookKernel.Lib.Directory
import HookKernel.Lib.Records
import HookKernel.Spec.Queue
import HookKernel.Spec.ProbeQueue
import HookKernel.Spec.Registry
import HookKernel.Spec.Message
import HookKernel.Spec.Datafile
import HookKernel.Spec.Receiver
import HookKernel.Spec.Sender
import HookKernel.Spec.System
import HookKernel.Spec.Lifecycle
import HookKernel.Spec.SyscallHook
import HookKernel.Spec.Response
import HookKernel.Spec.Kallsyms
import HookKernel.Spec.Genetlink
import HookKernel.Spec.LogBatch
import HookKernel.Spec.Dump
import HookKernel.Spec.Tlog
import HookKernel.Spec.TlogFiles
import HookKernel.Spec.TlogLine
import HookKernel.Spec.Rtnetlink
import HookKernel.Spec.Transfer
import HookKernel.Spec.Process
import HookKernel.Proof.QueueInv
import HookKernel.Proof.Queue
import HookKernel.Proof.ProbeQueue
import HookKernel.Proof.Registry
import HookKernel.Proof.Lifecycle
import HookKernel.Proof.Names
import HookKernel.Proof.Datafile
import HookKernel.Proof.CacheCalls
import HookKernel.Proof.Receiver
import HookKernel.Proof.Order
import HookKernel.Proof.Tags
import HookKernel.Proof.Cache
import HookKernel.Proof.Sender
import HookKernel.Proof.Ownership
import HookKernel.Proof.Exclusive
import HookKernel.Proof.Lists
import HookKernel.Proof.Complete
import HookKernel.Proof.Bound
import HookKernel.Proof.Uploads
import HookKernel.Proof.Release
import HookKernel.Proof.Threads
import HookKernel.Proof.Account
import HookKernel.Proof.Shutdown
import HookKernel.Proof.Durable
import HookKernel.Proof.CallSite
import HookKernel.Proof.Patches
import HookKernel.Proof.Publish
import HookKernel.Proof.Resend
import HookKernel.Proof.Window
import HookKernel.Proof.Reuse
import HookKernel.Proof.Filename
import HookKernel.Proof.Response
import HookKernel.Proof.Kallsyms
import HookKernel.Proof.Genetlink
import HookKernel.Proof.LogBatch
import HookKernel.Proof.Dump
import HookKernel.Proof.DumpLists
import HookKernel.Proof.TlogRing
import HookKernel.Proof.Tlog
import HookKernel.Proof.TlogStream
import HookKernel.Proof.TlogCalls
import HookKernel.Proof.TlogFiles
import HookKernel.Proof.TlogArchives
import HookKernel.Proof.TlogLine
import HookKernel.Proof.Rtnetlink
import HookKernel.Proof.Transfer
import HookKernel.Proof.Process
import HookKernel.Proof.QueueProgress
