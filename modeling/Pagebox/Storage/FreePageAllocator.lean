import Mathlib.Algebra.Group.Nat.Defs
import Mathlib.Data.List.Basic
import Mathlib.Logic.Function.Basic
import Pagebox.Base.Bytes
import Pagebox.Base.Runs

/-!
# The sharded free-page allocator

`FreePageAllocator` (`storage/src/free_page_allocator.rs`) as a transition
system.  A step is one atomic operation on a shard's monotonic range or on the
global high-water mark, one push or pop of a lock-free queue, or one section of
the central mutex.  `u64` values are naturals below `u64Limit`, `fetch_add`
wraps and `checked_add` panics.  A panic in the monotonic path leaves the thread
`panicked`; the assertions of the freelist, which guard a whole mutex section,
make the step `none`.

Fields that the code does not have are the `history` of calls and the initial
mark `firstPageNumber`, which only the specification reads.
-/

namespace Pagebox.Storage.FreePageAllocator

open Pagebox.Base Function

def hotBucketLimits : List Nat := [1, 2, 4, 8, 16, 32, 64, 128, 256]

def hotRefillBatch : Nat := 8

def monotonicRefillBasePages : Nat := 256

structure FreeExtent where
  startPageNumber : Nat
  len : Nat
  deriving DecidableEq

namespace FreeExtent

/-- `FreeExtent::new`: page 0 is reserved, extents are non-empty. -/
def new (startPageNumber len : Nat) : Option FreeExtent :=
  if 0 < startPageNumber ∧ 0 < len then some ⟨startPageNumber, len⟩ else none

/-- `end_page_number`, a `checked_add`. -/
def endPageNumber (e : FreeExtent) : Option Nat :=
  if e.startPageNumber + e.len < u64Limit then some (e.startPageNumber + e.len) else none

/-- `split_head`: the allocated head and what is left of the extent. -/
def splitHead (e : FreeExtent) (len : Nat) : Option (FreeExtent × FreeExtent) :=
  if 0 < len ∧ len ≤ e.len then
    (new e.startPageNumber len).map fun allocated =>
      (allocated, ⟨e.startPageNumber + len, e.len - len⟩)
  else none

end FreeExtent

def hotBucketForLen (len : Nat) : Option Nat :=
  hotBucketLimits.findIdx? fun limit => len ≤ limit

/-! ## The central best-fit freelist

`by_start_page_number` maps a start page to the extent starting there, so it is
the list of its extents in ascending order of their start. -/

structure CentralInner where
  byStartPageNumber : List FreeExtent
  freeBasePages : Nat

namespace CentralInner

def new : CentralInner := ⟨[], 0⟩

def mapInsert (e : FreeExtent) (m : List FreeExtent) : List FreeExtent :=
  m.filter (fun x => x.startPageNumber < e.startPageNumber) ++
    e :: m.filter (fun x => e.startPageNumber < x.startPageNumber)

def mapRemove (start : Nat) (m : List FreeExtent) : List FreeExtent :=
  m.filter fun x => x.startPageNumber ≠ start

/-- The first half of `insert`: coalesce with the extent that ends at `start`.
Returns the remaining map and the grown extent. -/
def joinPrev (m : List FreeExtent) (e : FreeExtent) : Option (List FreeExtent × FreeExtent) :=
  match (m.filter fun x => x.startPageNumber ≤ e.startPageNumber).getLast? with
  | none => some (m, e)
  | some prev => do
      let prevEnd ← prev.endPageNumber
      if prevEnd ≤ e.startPageNumber then
        if prevEnd = e.startPageNumber then
          some (mapRemove prev.startPageNumber m, ⟨prev.startPageNumber, e.len + prev.len⟩)
        else some (m, e)
      else none

/-- The second half of `insert`: coalesce with the extent that starts at `stop`,
the end of the inserted extent. -/
def joinNext (m : List FreeExtent) (e : FreeExtent) (stop : Nat) :
    Option (List FreeExtent × FreeExtent) :=
  match (m.filter fun x => e.startPageNumber ≤ x.startPageNumber).head? with
  | none => some (m, e)
  | some next =>
    if stop ≤ next.startPageNumber then
      if stop = next.startPageNumber then do
        let nextEnd ← next.endPageNumber
        some (mapRemove next.startPageNumber m, ⟨e.startPageNumber, nextEnd - e.startPageNumber⟩)
      else some (m, e)
    else none

def insert (c : CentralInner) (e : FreeExtent) : Option CentralInner := do
  let stop ← e.endPageNumber
  let (m, grown) ← joinPrev c.byStartPageNumber e
  let (m, grown) ← joinNext m grown stop
  some ⟨mapInsert grown m, c.freeBasePages + e.len⟩

/-- `min_by_key` on the length: the first of the shortest extents. -/
def minByLen : List FreeExtent → Option FreeExtent
  | [] => none
  | e :: es =>
    match minByLen es with
    | none => some e
    | some best => if e.len ≤ best.len then some e else some best

/-- `allocate_best_fit`; the outer `none` is a panic, the inner one a miss. -/
def allocateBestFit (c : CentralInner) (len : Nat) : Option (Option FreeExtent × CentralInner) :=
  match minByLen (c.byStartPageNumber.filter fun e => len ≤ e.len) with
  | none => some (none, c)
  | some extent => do
      let (allocated, remainder) ← extent.splitHead len
      let m := mapRemove extent.startPageNumber c.byStartPageNumber
      some (some allocated,
        ⟨if 0 < remainder.len then mapInsert remainder m else m, c.freeBasePages - len⟩)

end CentralInner

/-! ## Shards and threads -/

structure MonotonicRange where
  nextPageNumber : Nat
  endPageNumber : Nat
  /-- The thread holding `refill_lock`. -/
  refillLock : Option Nat

structure FreePageShard where
  buckets : Nat → List FreeExtent
  monotonic : MonotonicRange

def FreePageShard.new : FreePageShard := ⟨fun _ => [], ⟨0, 0, none⟩⟩

/-- Which call of `allocate_from_shard` in `allocate_extent` a thread is in. -/
inductive Source
  | own
  | ownAfterRefill
  | steal (offset : Nat)
  deriving DecidableEq

/-- What follows the `return_remainder` or `push` of an extent. -/
inductive AfterPush
  | finish (page : Nat)
  | retryOwn
  deriving DecidableEq

/-- Program counter of one `allocate_page` call; each constructor is the next
atomic step of the call. -/
inductive Pc
  | idle
  | pop (source : Source) (bucket : Nat)
  | push (shard : Nat) (extent : FreeExtent) (after : AfterPush)
  | refillBatch
  | refillOne
  | centralFit
  | fetchNext (locked : Bool)
  | loadEnd (locked : Bool) (next : Nat)
  | lockRefill
  | reserve
  | storeEnd (start : Nat)
  | storeNext (start : Nat)
  | ret (page : Nat)
  | panicked
  deriving DecidableEq

def AfterPush.resume : AfterPush → Pc
  | .finish page => .ret page
  | .retryOwn => .pop .ownAfterRefill 0

structure Thread where
  shardIdx : Nat
  pc : Pc

inductive Event
  | returned (thread page : Nat)
  | promoted (extent : FreeExtent)
  | reserved (start len : Nat)
  deriving DecidableEq

structure State where
  globalNextPageNumber : Nat
  shardCount : Nat
  shards : Nat → FreePageShard
  central : CentralInner
  threads : Nat → Thread
  firstPageNumber : Nat
  history : List Event

def new (nextPageNumber shardCount : Nat) : State where
  globalNextPageNumber := nextPageNumber
  shardCount := max shardCount 1
  shards := fun _ => FreePageShard.new
  central := CentralInner.new
  threads := fun _ => ⟨0, .idle⟩
  firstPageNumber := nextPageNumber
  history := []

namespace State

variable (s : State)

def setPc (t : Nat) (pc : Pc) : State :=
  { s with threads := update s.threads t ⟨(s.threads t).shardIdx, pc⟩ }

def setShard (i : Nat) (shard : FreePageShard) : State :=
  { s with shards := update s.shards i shard }

def setMonotonic (i : Nat) (m : MonotonicRange) : State :=
  s.setShard i { s.shards i with monotonic := m }

def setBucket (i b : Nat) (queue : List FreeExtent) : State :=
  s.setShard i { s.shards i with buckets := update (s.shards i).buckets b queue }

def bucket (i b : Nat) : List FreeExtent := (s.shards i).buckets b

def mono (i : Nat) : MonotonicRange := (s.shards i).monotonic

def sourceShard (t : Nat) : Source → Nat
  | .own => (s.threads t).shardIdx
  | .ownAfterRefill => (s.threads t).shardIdx
  | .steal offset => ((s.threads t).shardIdx + offset) % s.shardCount

def afterMiss : Source → Pc
  | .own => .refillBatch
  | .ownAfterRefill => if 1 < s.shardCount then .pop (.steal 1) 0 else .centralFit
  | .steal offset =>
    if offset + 1 < s.shardCount then .pop (.steal (offset + 1)) 0 else .centralFit

/-- `push`, with `central.insert` when no bucket takes the length: the whole of
`return_remainder`. -/
def returnRemainder (i : Nat) (e : FreeExtent) : Option State :=
  match hotBucketForLen e.len with
  | some b => some (s.setBucket i b (s.bucket i b ++ [e]))
  | none => (s.central.insert e).map fun c => { s with central := c }

/-- One `pop` of `pop_at_least(1)`, with the `split_head` that follows a hit. -/
def popStep (t : Nat) (source : Source) (b : Nat) : Option State :=
  let i := s.sourceShard t source
  match s.bucket i b with
  | extent :: rest => do
      let (allocated, remainder) ← extent.splitHead 1
      some ((s.setBucket i b rest).setPc t
        (if 0 < remainder.len then .push i remainder (.finish allocated.startPageNumber)
          else .ret allocated.startPageNumber))
  | [] =>
    some (s.setPc t
      (if b + 1 < hotBucketLimits.length then .pop source (b + 1) else s.afterMiss source))

def pushStep (t i : Nat) (e : FreeExtent) (after : AfterPush) : Option State := do
  let s ← s.returnRemainder i e
  some (s.setPc t after.resume)

/-- One `central.allocate_best_fit(len)`, going on at `hit e` or at `miss`. -/
def fitStep (t len : Nat) (hit : FreeExtent → Pc) (miss : Pc) : Option State := do
  let (found, central) ← s.central.allocateBestFit len
  some ({ s with central }.setPc t (match found with | some e => hit e | none => miss))

def afterTry (locked : Bool) : Pc := if locked then .reserve else .lockRefill

/-- The lock guard is dropped when its owner returns or unwinds. -/
def unlock (locked : Bool) (m : MonotonicRange) : MonotonicRange :=
  if locked then { m with refillLock := none } else m

/-- `next_page_number.fetch_add(1)` of `try_allocate`. -/
def fetchNextStep (t : Nat) (locked : Bool) : Option State :=
  let i := (s.threads t).shardIdx
  let next := (s.mono i).nextPageNumber
  let bumped := { s.mono i with nextPageNumber := (next + 1) % u64Limit }
  if next = 0 then some ((s.setMonotonic i bumped).setPc t (afterTry locked))
  else if next + 1 < u64Limit then
    some ((s.setMonotonic i bumped).setPc t (.loadEnd locked next))
  else some ((s.setMonotonic i (unlock locked bumped)).setPc t .panicked)

/-- `end_page_number.load()` of `try_allocate`, and the comparison. -/
def loadEndStep (t : Nat) (locked : Bool) (next : Nat) : Option State :=
  let i := (s.threads t).shardIdx
  if next + 1 ≤ (s.mono i).endPageNumber then
    some ((s.setMonotonic i (unlock locked (s.mono i))).setPc t (.ret next))
  else some (s.setPc t (afterTry locked))

def lockRefillStep (t : Nat) : Option State :=
  let i := (s.threads t).shardIdx
  if (s.mono i).refillLock = none then
    some ((s.setMonotonic i { s.mono i with refillLock := some t }).setPc t (.fetchNext true))
  else none

/-- `global_next_page_number.fetch_add(256)` and the checks on its result. -/
def reserveStep (t : Nat) : Option State :=
  let i := (s.threads t).shardIdx
  let start := s.globalNextPageNumber
  let s := { s with
    globalNextPageNumber := (start + monotonicRefillBasePages) % u64Limit }
  if 0 < start ∧ start + monotonicRefillBasePages < u64Limit then
    some { s.setPc t (.storeEnd start) with
      history := .reserved start monotonicRefillBasePages :: s.history }
  else some ((s.setMonotonic i (unlock true (s.mono i))).setPc t .panicked)

/-- The first store of `install_reserved_tail`. -/
def storeEndStep (t start : Nat) : Option State :=
  let i := (s.threads t).shardIdx
  some ((s.setMonotonic i
    { s.mono i with endPageNumber := start + monotonicRefillBasePages }).setPc t
      (.storeNext start))

/-- The second store of `install_reserved_tail`; the call returns `start`. -/
def storeNextStep (t start : Nat) : Option State :=
  let i := (s.threads t).shardIdx
  some ((s.setMonotonic i
    (unlock true { s.mono i with nextPageNumber := start + 1 })).setPc t (.ret start))

def retStep (t page : Nat) : Option State :=
  some { s.setPc t .idle with history := .returned t page :: s.history }

def runStep (t : Nat) : Option State :=
  match (s.threads t).pc with
  | .idle => none
  | .pop source b => s.popStep t source b
  | .push i e after => s.pushStep t i e after
  | .refillBatch =>
    s.fitStep t (min hotRefillBatch 256)
      (fun e => .push (s.threads t).shardIdx e .retryOwn) .refillOne
  | .refillOne =>
    s.fitStep t 1 (fun e => .push (s.threads t).shardIdx e .retryOwn)
      (.pop .ownAfterRefill 0)
  | .centralFit => s.fitStep t 1 (fun e => .ret e.startPageNumber) (.fetchNext false)
  | .fetchNext locked => s.fetchNextStep t locked
  | .loadEnd locked next => s.loadEndStep t locked next
  | .lockRefill => s.lockRefillStep t
  | .reserve => s.reserveStep t
  | .storeEnd start => s.storeEndStep t start
  | .storeNext start => s.storeNextStep t start
  | .ret page => s.retStep t page
  | .panicked => none

end State

inductive Action
  /-- Thread `t` calls `allocate_page(hint)`. -/
  | call (t hint : Nat)
  /-- Thread `t` performs the next step of its call. -/
  | run (t : Nat)
  /-- Some thread calls `promote_reusable_extent`. -/
  | promote (extent : FreeExtent)

def step (s : State) : Action → Option State
  | .call t hint =>
    if (s.threads t).pc = .idle then
      some { s with
        threads := update s.threads t ⟨hint % s.shardCount, .pop .own 0⟩ }
    else none
  | .run t => s.runStep t
  | .promote e =>
    if 0 < e.startPageNumber ∧ 0 < e.len then
      (s.central.insert e).map fun central =>
        { s with central, history := .promoted e :: s.history }
    else none

/-! ## What the callers of the allocator may rely on -/

namespace FreeExtent

def Contains (e : FreeExtent) (p : Nat) : Prop :=
  e.startPageNumber ≤ p ∧ p < e.startPageNumber + e.len

instance (e : FreeExtent) (p : Nat) : Decidable (e.Contains p) :=
  inferInstanceAs (Decidable (_ ∧ _))

end FreeExtent

/-- Pages in use after a history (newest event first): those below the initial
mark belong to the file the allocator was opened on, the others were returned by
a call; a promoted page is no longer in use. -/
def InUse (first : Nat) : List Event → Nat → Prop
  | [], p => 0 < p ∧ p < first
  | .returned _ q :: h, p => p = q ∨ InUse first h p
  | .promoted e :: h, p => InUse first h p ∧ ¬e.Contains p
  | .reserved _ _ :: h, p => InUse first h p

instance instDecidableInUse (first : Nat) :
    (h : List Event) → (p : Nat) → Decidable (InUse first h p)
  | [], p => inferInstanceAs (Decidable (0 < p ∧ p < first))
  | .returned _ q :: h, p =>
    have := instDecidableInUse first h p
    inferInstanceAs (Decidable (p = q ∨ InUse first h p))
  | .promoted e :: h, p =>
    have := instDecidableInUse first h p
    inferInstanceAs (Decidable (InUse first h p ∧ ¬e.Contains p))
  | .reserved _ _ :: h, p => instDecidableInUse first h p

/-- A page was made available to the allocator: reserved from the global mark,
or promoted for reuse. -/
def Available (h : List Event) (p : Nat) : Prop :=
  (∃ start len, .reserved start len ∈ h ∧ start ≤ p ∧ p < start + len) ∨
    ∃ e, .promoted e ∈ h ∧ e.Contains p

/-- No page is returned twice without a promotion in between, and every returned
page is non-zero and was reserved before. -/
structure AllocationsUnique (h : List Event) : Prop where
  promotedBetween : ∀ {newer between older t u p},
    h = newer ++ .returned t p :: (between ++ .returned u p :: older) →
      ∃ e, .promoted e ∈ between ∧ e.Contains p
  nonzero : ∀ {t p}, .returned t p ∈ h → p ≠ 0
  reserved : ∀ {newer older t p}, h = newer ++ .returned t p :: older → Available older p

/-- Thread `u` of shard `i` has stored the new end of the shard's range but not
yet its new cursor. -/
def Installing (s : State) (i : Nat) : Prop :=
  ∃ u start, s.threads u = ⟨i, .storeNext start⟩

/-- The condition under which allocation is safe, on the state a step is taken
from.  A cursor value fetched against one reservation must not be compared with
the end of the next one: when the end is stored, no other thread of the shard
holds a cursor value past the old end that the new end would admit; between the
two stores, no thread fetches a cursor value that the new end admits.  Neither
counter may wrap, and only pages in use are promoted. -/
def StepSafe (s : State) : Action → Prop
  | .call _ _ => True
  | .promote e => ∀ p, e.Contains p → InUse s.firstPageNumber s.history p
  | .run t =>
    let i := (s.threads t).shardIdx
    match (s.threads t).pc with
    | .fetchNext _ =>
      (s.mono i).nextPageNumber + 1 < u64Limit ∧ (Installing s i → (s.mono i).nextPageNumber ≠ 0 →
          (s.mono i).endPageNumber < (s.mono i).nextPageNumber + 1)
    | .reserve => s.globalNextPageNumber + monotonicRefillBasePages < u64Limit
    | .storeEnd start =>
      ∀ u locked n, u ≠ t → s.threads u = ⟨i, .loadEnd locked n⟩ →
        n + 1 ≤ (s.mono i).endPageNumber ∨ start + monotonicRefillBasePages < n + 1
    | _ => True

end Pagebox.Storage.FreePageAllocator
