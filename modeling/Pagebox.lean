import Pagebox.Btree.Scans
import Pagebox.Kv.FreshLsn
import Pagebox.Latch.HybridLatch
import Pagebox.Storage.CentralExtents
import Pagebox.Storage.CrashPrefix
import Pagebox.Storage.EvictionBudget
import Pagebox.Storage.ExactIo
import Pagebox.Storage.FrameTransitions
import Pagebox.Storage.FreePageConservation
import Pagebox.Storage.MutationRanges
import Pagebox.Storage.OptimisticReads
import Pagebox.Storage.SlottedMutation
import Pagebox.Storage.SlottedRefinement
import Pagebox.Storage.SwipWriteback
import Pagebox.Wal.BufferAccounting
import Pagebox.Wal.DeliveryOrder
import Pagebox.Wal.Handles
import Pagebox.Wal.LoggedImages
import Pagebox.Wal.LsnClaims
import Pagebox.Wal.PatchDiff
import Pagebox.Wal.RestartedRecovery
import Pagebox.Wal.SyncBarrier
import Pagebox.Wal.TornTail
import Pagebox.Wal.WrittenProgress
