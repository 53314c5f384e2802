import DLSM.Format.Key
import DLSM.Compaction.Input
import DLSM.Compaction.Loop
import DLSM.Compaction.Work
import DLSM.Compaction.Reads
import DLSM.Lib.List
import DLSM.Compaction.Subcompaction
import DLSM.Compaction.MemoryNode
import DLSM.Lib.SelectionSort
import DLSM.Version.Edit
import DLSM.Version.Pick
import DLSM.DB.MemTable
import DLSM.DB.State
import DLSM.DB.Write
import DLSM.DB.Flush
import DLSM.DB.Background
import DLSM.DB.Read
import DLSM.DB.Step
import DLSM.DB.Routing
import DLSM.Lib.Index
import DLSM.Format.Comparator
import DLSM.Table.Builder
import DLSM.Table.Get
import DLSM.Version.Get
import DLSM.DB.SuperVersion
import DLSM.Version.EditCoding
import DLSM.DB.MemTableCoding
import DLSM.Version.Builder
import DLSM.Version.Merger
import DLSM.Table.Block
import DLSM.Format.Pointer
import DLSM.DB.SkipListInvariant
import DLSM.DB.SkipListInsert
import DLSM.DB.SkipListRun
import DLSM.DB.SkipListIterator
import DLSM.DB.SkipListConcurrent
import DLSM.Table.IndexKey
import DLSM.Table.Filter
import DLSM.Lib.Ring
import DLSM.Table.WriteRing
import DLSM.Lib.FreeList
import DLSM.Util.RdmaSlots
