import Redroid.Lib.Sys
import Redroid.Lib.Mask
import Redroid.Lib.DescList
import Redroid.Kernel.Vma
import Redroid.IpcVerify
import Redroid.HostMain
import Redroid.Ashmem.Area
import Redroid.Ashmem.Prot
import Redroid.Ashmem.Pin
import Redroid.Ashmem.Shared
import Redroid.Ashmem.Shrink
import Redroid.Ashmem.Lru
import Redroid.Ashmem.Purge
import Redroid.Ashmem.PinRange
import Redroid.Ashmem.Scan
import Redroid.Lib.RbTree
import Redroid.Lib.Tiling
import Redroid.Lib.Places
import Redroid.Lib.Bytes
import Redroid.Lib.Count
import Redroid.Lib.CallChain
import Redroid.Binder.Alloc
import Redroid.Binder.AllocInv
import Redroid.Binder.AllocRun
import Redroid.Binder.BestFit
import Redroid.Binder.Pages
import Redroid.Binder.Copy
import Redroid.Binder.Mmap
import Redroid.Binder.Txn
import Redroid.Binder.TxnInv
import Redroid.Binder.TxnStep
import Redroid.Binder.TxnCases
import Redroid.Binder.TxnSched
import Redroid.Binder.TxnPhase
import Redroid.Binder.TxnFlow
import Redroid.Binder.TxnOrder
import Redroid.Binder.TxnNet
import Redroid.Binder.TxnNetStep
import Redroid.Binder.TxnNetActs
import Redroid.Binder.TxnNetRun
import Redroid.Binder.TxnStacks
import Redroid.Binder.TxnBacked
import Redroid.Binder.TxnProgress
import Redroid.Binder.TxnBuffers
import Redroid.Binder.Ref
import Redroid.Binder.RefCases
import Redroid.Binder.RefNode
import Redroid.Binder.RefTables
import Redroid.Binder.RefCounts
import Redroid.Binder.RefCreate
import Redroid.Binder.Desc
import Redroid.Binder.RefShape
import Redroid.Binder.RefLedger
import Redroid.Binder.RefTmp
import Redroid.Binder.RefLinks
import Redroid.Binder.RefTurns
import Redroid.Binder.NodeInfo
import Redroid.Binder.RefView
import Redroid.Binder.RefLocal
import Redroid.Binder.RefFree
import Redroid.Binder.RefLeak
import Redroid.Binder.RefLocks
import Redroid.Binder.RefPair
import Redroid.Binder.RefGrants
import Redroid.Binder.RefNotify
import Redroid.Binder.CtxMgr
import Redroid.Binder.Scatter
import Redroid.Binder.ScatterInv
import Redroid.Binder.Fixup
import Redroid.Binder.Walk
import Redroid.Binder.Layout
import Redroid.Binder.Write
import Redroid.Binder.Read
import Redroid.Binder.Looper
import Redroid.Binder.Log
import Redroid.Binder.Translate
import Redroid.Binder.Journey
import Redroid.Binder.Todo
import Redroid.Binder.TodoInv
import Redroid.Binder.Death
import Redroid.Binder.DeathInv
import Redroid.Binderfs.Fs
import Redroid.Binderfs.Ida
import Redroid.Binderfs.Remount
import Redroid.Binderfs.Devices
import Redroid.Binderfs.Steps
import Redroid.Binderfs.Ledger
import Redroid.Binderfs.Mount
import Redroid.Binderfs.Minor
import Redroid.Load
