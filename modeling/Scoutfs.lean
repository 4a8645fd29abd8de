import Scoutfs.Format
import Scoutfs.Lib.Index
import Scoutfs.Ext
import Scoutfs.ExtSpec
import Scoutfs.AllocExt
import Scoutfs.Alloc
import Scoutfs.AllocSpec
import Scoutfs.Quorum
import Scoutfs.QuorumSpec
import Scoutfs.XattrTotals
import Scoutfs.Srch
import Scoutfs.SrchSpec
import Scoutfs.BtreeMerge
import Scoutfs.BtreeBlocks
import Scoutfs.BtreeBlocksSpec
import Scoutfs.SrchLog
import Scoutfs.SrchLogSpec
import Scoutfs.SrchCompact
import Scoutfs.SrchCompactSpec
import Scoutfs.Lib.Finmap
import Scoutfs.SrchServer
import Scoutfs.SrchServerSpec
import Scoutfs.SrchServerRun
import Scoutfs.ExtBlocks
import Scoutfs.AllocBlocks
import Scoutfs.SrchRadix
import Scoutfs.SrchRadixSpec
import Scoutfs.SrchRadixRun
import Scoutfs.SrchRadixDelete
import Scoutfs.Lib.LinearProbe
import Scoutfs.BtreeItems
import Scoutfs.BtreeItemsSpec
import Scoutfs.Lib.Heap
import Scoutfs.BtreeCompact
import Scoutfs.BtreeValues
import Scoutfs.BtreeRoot
import Scoutfs.BtreeRootSpec
import Scoutfs.BtreeVerify
import Scoutfs.Lib.Mailbox
import Scoutfs.LockClient
import Scoutfs.LockInv
import Scoutfs.LockSafety
