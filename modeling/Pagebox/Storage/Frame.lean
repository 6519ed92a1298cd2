import Pagebox.Wal.Shard

/-!
# Frame metadata

The part of a frame header that logging and writeback read and write
(`FrameHeaderCore`), with the functions of `buffer_pool.rs` that change it.  The
reference bit and the parent link steer eviction only and are left out; pins and
the latch belong to the models of the pool.
-/

namespace Pagebox.Storage

open Wal

inductive FrameState
  | free
  | loading
  | resident
  | evicting
  deriving DecidableEq

def FrameState.isValidTransition : FrameState → FrameState → Bool
  | .free, .loading => true
  | .free, .resident => true
  | .loading, .resident => true
  | .loading, .free => true
  | .resident, .evicting => true
  | .evicting, .free => true
  | .evicting, .resident => true
  | _, _ => false

structure FrameCore where
  pid : Nat
  pageLsn : Nat
  dirty : Bool
  dirtyGeneration : Nat
  hasPageImageBase : Bool
  walRecord : BufferedWalRecord
  deriving DecidableEq

namespace FrameCore

def installLoaded (c : FrameCore) (pid onDiskLsn : Nat) : FrameCore :=
  { c with
    pid := pid
    dirty := false
    pageLsn := onDiskLsn
    hasPageImageBase := onDiskLsn ≠ 0
    walRecord := .none }

def clearDirty (c : FrameCore) : FrameCore :=
  { c with dirty := false, hasPageImageBase := true, walRecord := .none }

/-- The stores at the end of `append_full_page_image_with_lsn`. -/
def imageLogged (c : FrameCore) (lsn : Nat) (record : BufferedWalRecord) : FrameCore :=
  { c with pageLsn := lsn, hasPageImageBase := true, walRecord := record }

/-- The stores of `mark_dirty_ranges_raw` after its patch was appended. -/
def patchLogged (c : FrameCore) (lsn : Nat) : FrameCore :=
  { c with pageLsn := lsn, walRecord := .none }

def finishDirtyMark (c : FrameCore) : FrameCore :=
  { c with dirtyGeneration := (c.dirtyGeneration + 1) % Base.u64Limit, dirty := true }

end FrameCore

end Pagebox.Storage
