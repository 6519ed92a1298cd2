import Pagebox.Base.ByteOrder
import Pagebox.Base.Search
import Pagebox.Page

/-!
# Slotted pages

The bytes of a slotted page (`storage/src/slotted_page.rs`): a header, an array
of slots that grows upwards, and the keys and values, which grow downwards from a
reserved suffix.  An operation fails with `panic` where the source panics, and
with `overflow` where a number would not fit its machine type or a difference
would be negative; the source wraps there, or panics with overflow checks on.

Slots are written through raw pointers in the source, keys and values through
bounds-checked slices (`put`).  The operations that convert with `as u16` are given
for any reading of these conversions: `compactify`, `insertEntry` and `insert` mark
the ones that would lose bits, which the source does without notice.
-/

namespace Pagebox.Storage

open Pagebox.Base

inductive Fault
  | panic
  | overflow
  deriving DecidableEq

namespace Fault

/-- A subtraction of unsigned numbers. -/
def sub (a b : Nat) : Except Fault Nat := if b ≤ a then .ok (a - b) else .error .overflow

/-- A number stored in, or cast to, `bits` bits. -/
def fit (bits n : Nat) : Except Fault Nat := if n < 2 ^ bits then .ok n else .error .overflow

def assert (b : Bool) : Except Fault Unit := if b then .ok () else .error .panic

end Fault

def slottedHeaderSize : Nat := 24

def slotSize : Nat := 12

def slotPos (i : Nat) : Nat := slottedHeaderSize + i * slotSize

structure Entry where
  key : Bytes
  value : Bytes
  deriving DecidableEq

def Entry.len (e : Entry) : Nat := e.key.length + e.value.length

/-- `Slot`; its padding is zero. -/
structure PageSlot where
  offset : Nat
  keyLen : Nat
  valLen : Nat
  head : Nat
  deriving DecidableEq

def PageSlot.bytes (s : PageSlot) : Bytes :=
  leBytes 2 s.offset ++ leBytes 2 s.keyLen ++ leBytes 2 s.valLen ++ leBytes 2 0 ++ leBytes 4 s.head

def PageSlot.ofBytes (bytes : Bytes) : PageSlot where
  offset := leNat (bytes.take 2)
  keyLen := leNat ((bytes.drop 2).take 2)
  valLen := leNat ((bytes.drop 4).take 2)
  head := leNat ((bytes.drop 8).take 4)

def makeHead (key : Bytes) : Nat := beNat (firstBytes 4 key)

structure SlottedPage (ps : PageSize) where
  data : Page ps
  deriving DecidableEq

namespace SlottedPage

variable {ps : PageSize}

/-! ## Header and slots -/

def dataOffset (p : SlottedPage ps) : Nat := p.data.readNat 8 4

def spaceUsed (p : SlottedPage ps) : Nat := p.data.readNat 12 4

def numSlots (p : SlottedPage ps) : Nat := p.data.readNat 16 2

def flags (p : SlottedPage ps) : Nat := p.data.readNat 18 2

def setDataOffset (p : SlottedPage ps) (n : Nat) : SlottedPage ps := ⟨p.data.writeNat 8 4 n⟩

def setSpaceUsed (p : SlottedPage ps) (n : Nat) : SlottedPage ps := ⟨p.data.writeNat 12 4 n⟩

def setNumSlots (p : SlottedPage ps) (n : Nat) : SlottedPage ps := ⟨p.data.writeNat 16 2 n⟩

def setFlags (p : SlottedPage ps) (n : Nat) : SlottedPage ps := ⟨p.data.writeNat 18 2 n⟩

def flagHasGarbage : Nat := 1

def setGarbage (p : SlottedPage ps) : SlottedPage ps := p.setFlags (p.flags ||| flagHasGarbage)

def clearGarbage (p : SlottedPage ps) : SlottedPage ps := p.setFlags (p.flags &&& 0xfffe)

def slot (p : SlottedPage ps) (i : Nat) : PageSlot :=
  .ofBytes (p.data.slice (slotPos i) (slotPos i + slotSize))

def setSlot (p : SlottedPage ps) (i : Nat) (s : PageSlot) : SlottedPage ps :=
  ⟨p.data.write (slotPos i) s.bytes⟩

def setSlotOffset (p : SlottedPage ps) (i offset : Nat) : SlottedPage ps :=
  ⟨p.data.writeNat (slotPos i) 2 offset⟩

def slotArrayEnd (p : SlottedPage ps) : Nat := slotPos p.numSlots

def put (p : SlottedPage ps) (offset : Nat) (bytes : Bytes) : Except Fault (SlottedPage ps) :=
  if offset + bytes.length ≤ ps.bytes then .ok ⟨p.data.write offset bytes⟩ else .error .panic

def init (ps : PageSize) : SlottedPage ps := (⟨.zero ps⟩ : SlottedPage ps).setDataOffset ps.bytes

def reserveSuffix (p : SlottedPage ps) (n : Nat) : Except Fault (SlottedPage ps) := do
  let n ← Fault.fit 32 n
  let offset ← Fault.sub p.dataOffset n
  let used ← Fault.fit 32 (p.spaceUsed + n)
  return (p.setDataOffset offset).setSpaceUsed used

def freeSpace (p : SlottedPage ps) : Nat := p.dataOffset - p.slotArrayEnd

def freeSpaceAfterCompaction (p : SlottedPage ps) : Nat :=
  ps.bytes - (p.slotArrayEnd + p.spaceUsed)

def getKey (p : SlottedPage ps) (i : Nat) : Bytes :=
  p.data.slice (p.slot i).offset ((p.slot i).offset + (p.slot i).keyLen)

def getValue (p : SlottedPage ps) (i : Nat) : Bytes :=
  p.data.slice ((p.slot i).offset + (p.slot i).keyLen)
    ((p.slot i).offset + (p.slot i).keyLen + (p.slot i).valLen)

def entries (p : SlottedPage ps) : List Entry :=
  (List.range p.numSlots).map fun i => ⟨p.getKey i, p.getValue i⟩

def canInsert (p : SlottedPage ps) (keyLen valLen : Nat) : Bool :=
  slotSize + keyLen + valLen ≤ p.freeSpace ∨ slotSize + keyLen + valLen ≤ p.freeSpaceAfterCompaction

/-- `cmp_keys`, and the comparison of numbers. -/
def cmpOf {α : Type} [LT α] [DecidableLT α] [DecidableEq α] (a b : α) : Ordering :=
  if a < b then .lt else if a = b then .eq else .gt

def slotKeyU64 (p : SlottedPage ps) (i : Nat) : Option Nat :=
  let s := p.slot i
  if s.keyLen ≠ 8 then none
  else if ps.bytes < s.offset + 8 then none
  else some (beNat (p.data.slice s.offset (s.offset + 8)))

/-- `lower_bound_generic`: heads are compared first. -/
def lowerBoundGeneric (p : SlottedPage ps) (key : Bytes) : Nat × Bool :=
  let cmp := fun i =>
    match cmpOf (p.slot i).head (makeHead key) with
    | .eq => some (cmpOf (p.getKey i) key)
    | o => some o
  (binarySearch cmp (p.numSlots + 1) 0 p.numSlots).getD (0, false)

/-- `lower_bound_u64_be`; a slot whose key is not a `u64` sends the search to
`lower_bound_generic`. -/
def lowerBoundU64 (p : SlottedPage ps) (key : Bytes) : Nat × Bool :=
  let cmp := fun i => (p.slotKeyU64 i).map fun n => cmpOf n (beNat key)
  (binarySearch cmp (p.numSlots + 1) 0 p.numSlots).getD (p.lowerBoundGeneric key)

def lowerBound (p : SlottedPage ps) (key : Bytes) : Nat × Bool :=
  if key.length = 8 then p.lowerBoundU64 key else p.lowerBoundGeneric key

/-- The live bytes; every entry has to end inside the page. -/
def liveData (p : SlottedPage ps) : List Nat → Except Fault Nat
  | [] => .ok 0
  | i :: is => do
      let s := p.slot i
      Fault.assert (s.offset + (s.keyLen + s.valLen) ≤ ps.bytes)
      let rest ← p.liveData is
      return s.keyLen + s.valLen + rest

/-- Copy the live entries into a temporary page, downwards from `offset`. -/
def gather (p : SlottedPage ps) : List Nat → Nat → SlottedPage ps → Except Fault (SlottedPage ps)
  | [], _, tmp => .ok tmp
  | i :: is, offset, tmp => do
      let s := p.slot i
      let offset ← Fault.sub offset (s.keyLen + s.valLen)
      let tmp ← tmp.put offset (p.data.slice s.offset (s.offset + (s.keyLen + s.valLen)))
      p.gather is offset tmp

/-- Copy the entries back and point the slots from `i` on at them. -/
def scatterWith (cast : Nat → Except Fault Nat) (tmp : SlottedPage ps) :
    Nat → List Nat → Nat → SlottedPage ps → Except Fault (SlottedPage ps × Nat)
  | _, [], offset, p => .ok (p, offset)
  | i, len :: lens, offset, p => do
      let offset ← Fault.sub offset len
      let p ← p.put offset (tmp.data.slice offset (offset + len))
      let slotOffset ← cast offset
      scatterWith cast tmp (i + 1) lens offset (p.setSlotOffset i slotOffset)

/-- The sums of two `u16` that `compactify` keeps for its last loop. -/
def dataLens (p : SlottedPage ps) : List Nat → Except Fault (List Nat)
  | [] => .ok []
  | i :: is => do
      let len ← Fault.fit 16 ((p.slot i).keyLen + (p.slot i).valLen)
      let lens ← p.dataLens is
      return len :: lens

def compactifyWith (cast : Nat → Except Fault Nat) (p : SlottedPage ps) :
    Except Fault (SlottedPage ps) :=
  if p.numSlots = 0 then do
    let offset ← Fault.sub ps.bytes p.spaceUsed
    return (p.setDataOffset offset).clearGarbage
  else do
    let live ← p.liveData (List.range p.numSlots)
    let reserved ← Fault.sub p.spaceUsed live
    let start ← Fault.sub ps.bytes reserved
    let tmp ← p.gather (List.range p.numSlots) start ⟨.zero ps⟩
    let lens ← p.dataLens (List.range p.numSlots)
    let (p, offset) ← scatterWith cast tmp 0 lens start p
    return (p.setDataOffset offset).clearGarbage

def compactify (p : SlottedPage ps) : Except Fault (SlottedPage ps) :=
  p.compactifyWith (Fault.fit 16)

/-- Move the slots from `src` up to `count` to `dst` (`ptr::copy`). -/
def moveSlots (p : SlottedPage ps) (src dst count : Nat) : SlottedPage ps :=
  ⟨p.data.write (slotPos dst) (p.data.slice (slotPos src) (slotPos count))⟩

def insertEntryWith (cast : Nat → Except Fault Nat) (p : SlottedPage ps)
    (slotId : Nat) (e : Entry) :
    Except Fault (SlottedPage ps) := do
  let offset ← Fault.sub p.dataOffset e.len
  let p ← p.put offset e.key
  let p ← p.put (offset + e.key.length) e.value
  let count := p.numSlots
  let p := if slotId < count then p.moveSlots slotId (slotId + 1) count else p
  let newCount ← Fault.fit 16 (count + 1)
  let p := p.setNumSlots newCount
  -- the debug assertion of `slot_mut`
  Fault.assert (slotId < newCount)
  let slotOffset ← cast offset
  let keyLen ← cast e.key.length
  let valLen ← cast e.value.length
  let p := p.setSlot slotId ⟨slotOffset, keyLen, valLen, makeHead e.key⟩
  let p := p.setDataOffset offset
  let used ← Fault.fit 32 (p.spaceUsed + e.len)
  return p.setSpaceUsed used

def insertWith (cast : Nat → Except Fault Nat) (p : SlottedPage ps) (slotId : Nat) (e : Entry) :
    Except Fault (SlottedPage ps) := do
  let needed := slotSize + e.len
  let p ← if p.freeSpace < needed then do
      Fault.assert (needed ≤ p.freeSpaceAfterCompaction)
      p.compactifyWith cast
    else .ok p
  p.insertEntryWith cast slotId e

def insertEntry (p : SlottedPage ps) (slotId : Nat) (e : Entry) : Except Fault (SlottedPage ps) :=
  p.insertEntryWith (Fault.fit 16) slotId e

def insert (p : SlottedPage ps) (slotId : Nat) (e : Entry) : Except Fault (SlottedPage ps) :=
  p.insertWith (Fault.fit 16) slotId e

def remove (p : SlottedPage ps) (slotId : Nat) : Except Fault (SlottedPage ps) := do
  let count := p.numSlots
  Fault.assert (slotId < count)
  let s := p.slot slotId
  let used ← Fault.sub p.spaceUsed (s.keyLen + s.valLen)
  let p := p.setSpaceUsed used
  let p := if 0 < count - slotId - 1 then p.moveSlots (slotId + 1) slotId count else p
  let newCount ← Fault.sub count 1
  return (p.setNumSlots newCount).setGarbage

/-- `update_value_if_same_length`; the flag is its result. -/
def updateValue (p : SlottedPage ps) (slotId : Nat) (value : Bytes) :
    Except Fault (SlottedPage ps × Bool) :=
  let s := p.slot slotId
  if value.length ≠ s.valLen then .ok (p, false)
  else do
    let p ← p.put (s.offset + s.keyLen) value
    return (p, true)

def releaseSlots (p : SlottedPage ps) : List Nat → Nat → Except Fault Nat
  | [], used => .ok used
  | i :: is, used => do
      let used ← Fault.sub used ((p.slot i).keyLen + (p.slot i).valLen)
      p.releaseSlots is used

def truncate (p : SlottedPage ps) (newCount : Nat) : Except Fault (SlottedPage ps) := do
  let oldCount := p.numSlots
  Fault.assert (newCount ≤ oldCount)
  if newCount = oldCount then return p
  else do
    let used ← p.releaseSlots (List.range' newCount (oldCount - newCount)) p.spaceUsed
    ((p.setSpaceUsed used).setNumSlots newCount).setGarbage.compactify

/-- `copy_key_value_range`: append the slots in the list to `dst`. -/
def copySlots (p : SlottedPage ps) : List Nat → SlottedPage ps → Except Fault (SlottedPage ps)
  | [], dst => .ok dst
  | i :: is, dst => do
      let dst ← dst.insert dst.numSlots ⟨p.getKey i, p.getValue i⟩
      p.copySlots is dst

def copyKeyValueRange (p : SlottedPage ps) (dst : SlottedPage ps) (srcSlot count : Nat) :
    Except Fault (SlottedPage ps) :=
  p.copySlots (List.range' srcSlot count) dst

end SlottedPage

end Pagebox.Storage
