import Pagebox.Storage.SlottedSearch

/-!
# Reads of a page that may be torn

The `try_*` reads of a slotted page, and `try_route_to_child` of
`btree/src/btree/node.rs`, which a reader without a latch makes on whatever bytes the
page has.  The model checks every access: a slice that does not lie inside the page
panics, a load through a raw pointer outside the page is undefined behaviour, and a
loop that has used up its rounds has not ended.
-/

namespace Pagebox.Storage

open Pagebox.Base SlottedPage

inductive ReadFault
  | panic
  | undefined
  | running
  deriving DecidableEq

/-- What a `try_*` function gives: `none` where it rejects the page. -/
abbrev Attempt (α : Type) : Type := Except ReadFault (Option α)

/-- The operator `?`. -/
def Attempt.andThen {α β : Type} (x : Attempt α) (f : α → Attempt β) : Attempt β :=
  match x with
  | .error e => .error e
  | .ok none => .ok none
  | .ok (some a) => f a

structure View (ps : PageSize) where
  start : Nat
  stop : Nat
  ordered : start ≤ stop
  inside : stop ≤ ps.bytes

/-- The loop of both searches; `order` may reject a slot. -/
def trySearch (order : Nat → Attempt Ordering) : Nat → Nat → Nat → Attempt (Nat × Bool)
  | 0, _, _ => .error .running
  | fuel + 1, lo, hi =>
    if lo < hi then
      let mid := lo + (hi - lo) / 2
      Attempt.andThen (order mid) fun
        | .lt => trySearch order fuel (mid + 1) hi
        | .gt => trySearch order fuel lo mid
        | .eq => .ok (some (mid, true))
    else .ok (some (lo, false))

inductive ParentEdge
  | slot (pos : Nat)
  | upper
  deriving DecidableEq

def parentEdgeFromPos (pos count : Nat) : ParentEdge := if pos = count then .upper else .slot pos

def parentEdgePos (edge : ParentEdge) (count : Nat) : Nat :=
  match edge with
  | .slot pos => pos
  | .upper => count

variable {ps : PageSize}

namespace SlottedPage

variable (p : SlottedPage ps)

def view (ps : PageSize) (start stop : Nat) : Except ReadFault (View ps) :=
  if h : start ≤ stop ∧ stop ≤ ps.bytes then .ok ⟨start, stop, h.1, h.2⟩ else .error .panic

def bytesOf (v : View ps) : Bytes := p.data.slice v.start v.stop

def loadSlot (i : Nat) : Except ReadFault PageSlot :=
  if slotPos i + slotSize ≤ ps.bytes then .ok (p.slot i) else .error .undefined

def trySlotCopy (i : Nat) : Attempt PageSlot :=
  if p.numSlots ≤ i then .ok none
  else if ps.bytes < slotPos i + slotSize then .ok none
  else (p.loadSlot i).map some

def tryGetKey (i : Nat) : Attempt (View ps) :=
  Attempt.andThen (p.trySlotCopy i) fun s =>
    if ps.bytes < s.offset + s.keyLen then .ok none
    else (view ps s.offset (s.offset + s.keyLen)).map some

def tryGetValue (i : Nat) : Attempt (View ps) :=
  Attempt.andThen (p.trySlotCopy i) fun s =>
    if ps.bytes < s.offset + s.keyLen + s.valLen then .ok none
    else (view ps (s.offset + s.keyLen) (s.offset + s.keyLen + s.valLen)).map some

/-- `read_be_u64`, which copies into a buffer of eight bytes. -/
def readBeU64 (bytes : Bytes) : Except ReadFault Nat :=
  if bytes.length = 8 then .ok (beNat bytes) else .error .panic

def trySlotKeyU64 (i : Nat) : Attempt Nat :=
  Attempt.andThen (p.trySlotCopy i) fun s =>
    if s.keyLen ≠ 8 then .ok none
    else if ps.bytes < s.offset + 8 then .ok none
    else (view ps s.offset (s.offset + 8) >>= fun v => readBeU64 (p.bytesOf v)).map some

/-- Heads are compared first, keys where the heads are equal. -/
def tryCompare (key : Bytes) (i : Nat) : Attempt Ordering :=
  Attempt.andThen (p.trySlotCopy i) fun s =>
    match cmpOf s.head (makeHead key) with
    | .eq => Attempt.andThen (p.tryGetKey i) fun v => .ok (some (cmpOf (p.bytesOf v) key))
    | o => .ok (some o)

def tryLowerBoundGeneric (key : Bytes) : Attempt (Nat × Bool) :=
  if p.numSlots = 0 then .ok (some (0, false))
  else if ps.bytes / 12 < p.numSlots then .ok none
  else trySearch (p.tryCompare key) (p.numSlots + 1) 0 p.numSlots

def tryLowerBoundU64 (key : Bytes) : Attempt (Nat × Bool) :=
  if p.numSlots = 0 then .ok (some (0, false))
  else if ps.bytes / 12 < p.numSlots then .ok none
  else
    match trySearch (fun i => Attempt.andThen (p.trySlotKeyU64 i) fun n =>
      .ok (some (cmpOf n (beNat key)))) (p.numSlots + 1) 0 p.numSlots with
    | .ok none => p.tryLowerBoundGeneric key
    | r => r

def tryLowerBound (key : Bytes) : Attempt (Nat × Bool) :=
  if key.length = 8 then p.tryLowerBoundU64 key else p.tryLowerBoundGeneric key

/-- `upper_swip`, in the last eight bytes of the page. -/
def upperSwip : Except ReadFault Nat := do
  let v ← view ps (ps.bytes - 8) ps.bytes
  return leNat (p.bytesOf v)

/-- `try_route_to_child`: the word of the child and its edge. -/
def tryRouteToChild (key : Bytes) : Attempt (Nat × ParentEdge) :=
  let count := p.numSlots
  Attempt.andThen (p.tryLowerBound key) fun found =>
    match parentEdgeFromPos found.1 count with
    | .upper => p.upperSwip.map fun word => some (word, .upper)
    | .slot pos =>
      Attempt.andThen (p.tryGetValue (parentEdgePos (parentEdgeFromPos pos count) count)) fun v =>
        if v.stop - v.start < 8 then .ok none
        else (view ps v.start (v.start + 8)).map fun w => some (leNat (p.bytesOf w), .slot pos)

end SlottedPage

/-! ## Nothing outside the page is touched -/

/-- An attempt that ends without a fault. -/
def Harmless {α : Type} (x : Attempt α) : Prop := ∃ r, x = .ok r

namespace Harmless

variable {α β : Type}

theorem andThen {x : Attempt α} {f : α → Attempt β} (hx : Harmless x) (hf : ∀ a, Harmless (f a)) :
    Harmless (Attempt.andThen x f) := by
  obtain ⟨r, rfl⟩ := hx
  cases r with
  | none => exact ⟨none, rfl⟩
  | some a => exact hf a

/-- The part of the positions that is left shrinks in every round. -/
theorem trySearch {order : Nat → Attempt Ordering} (horder : ∀ i, Harmless (order i))
    {fuel lo hi : Nat} (hfuel : hi - lo < fuel) : Harmless (trySearch order fuel lo hi) := by
  induction fuel generalizing lo hi with
  | zero => omega
  | succ fuel ih =>
    unfold Storage.trySearch
    split
    · refine (horder _).andThen fun o => ?_
      cases o with
      | lt => exact ih (by omega)
      | gt => exact ih (by omega)
      | eq => exact ⟨_, rfl⟩
    · exact ⟨_, rfl⟩

end Harmless

theorem view_of_le {start stop : Nat} (hle : start ≤ stop) (hstop : stop ≤ ps.bytes) :
    view ps start stop = .ok ⟨start, stop, hle, hstop⟩ :=
  dif_pos ⟨hle, hstop⟩

section

variable (p : SlottedPage ps) (key : Bytes) (i : Nat)

theorem harmless_trySlotCopy : Harmless (p.trySlotCopy i) := by
  unfold SlottedPage.trySlotCopy
  split
  · exact ⟨_, rfl⟩
  · split
    · exact ⟨_, rfl⟩
    · rw [SlottedPage.loadSlot, if_pos (by omega)]
      exact ⟨_, rfl⟩

theorem harmless_tryGetKey : Harmless (p.tryGetKey i) := by
  refine (harmless_trySlotCopy p i).andThen fun s => ?_
  split
  · exact ⟨_, rfl⟩
  · rw [view_of_le (by omega) (by omega)]
    exact ⟨_, rfl⟩

theorem harmless_tryGetValue : Harmless (p.tryGetValue i) := by
  refine (harmless_trySlotCopy p i).andThen fun s => ?_
  split
  · exact ⟨_, rfl⟩
  · rw [view_of_le (by omega) (by omega)]
    exact ⟨_, rfl⟩

theorem harmless_trySlotKeyU64 : Harmless (p.trySlotKeyU64 i) := by
  refine (harmless_trySlotCopy p i).andThen fun s => ?_
  split
  · exact ⟨_, rfl⟩
  split
  · exact ⟨_, rfl⟩
  have hlen : (p.data.slice s.offset (s.offset + 8)).length = 8 := by
    rw [Page.length_slice (by omega)]
    omega
  have hread : readBeU64 (p.data.slice s.offset (s.offset + 8)) =
      .ok (beNat (p.data.slice s.offset (s.offset + 8))) := if_pos hlen
  rw [view_of_le (Nat.le_add_right ..) (by omega)]
  exact ⟨some (beNat (p.data.slice s.offset (s.offset + 8))), congrArg (Except.map some) hread⟩

theorem harmless_tryCompare : Harmless (p.tryCompare key i) := by
  refine (harmless_trySlotCopy p i).andThen fun s => ?_
  split
  · exact (harmless_tryGetKey p i).andThen fun v => ⟨_, rfl⟩
  · exact ⟨_, rfl⟩

theorem harmless_tryLowerBoundGeneric : Harmless (p.tryLowerBoundGeneric key) := by
  unfold SlottedPage.tryLowerBoundGeneric
  split
  · exact ⟨_, rfl⟩
  · split
    · exact ⟨_, rfl⟩
    · exact .trySearch (harmless_tryCompare p key) (by omega)

theorem harmless_tryLowerBound : Harmless (p.tryLowerBound key) := by
  unfold SlottedPage.tryLowerBound
  split
  · unfold SlottedPage.tryLowerBoundU64
    split
    · exact ⟨_, rfl⟩
    split
    · exact ⟨_, rfl⟩
    have hsearch : Harmless (trySearch (fun i => Attempt.andThen (p.trySlotKeyU64 i) fun n =>
        .ok (some (cmpOf n (beNat key)))) (p.numSlots + 1) 0 p.numSlots) :=
      .trySearch (fun i => (harmless_trySlotKeyU64 p i).andThen fun n => ⟨_, rfl⟩) (by omega)
    obtain ⟨r, hr⟩ := hsearch
    rw [hr]
    cases r with
    | none => exact harmless_tryLowerBoundGeneric p key
    | some r => exact ⟨_, rfl⟩
  · exact harmless_tryLowerBoundGeneric p key

theorem harmless_tryRouteToChild : Harmless (p.tryRouteToChild key) := by
  refine (harmless_tryLowerBound p key).andThen fun r => ?_
  split
  · rw [SlottedPage.upperSwip, view_of_le (by omega) le_rfl]
    exact ⟨_, rfl⟩
  refine (harmless_tryGetValue p _).andThen fun v => ?_
  have hinside := v.inside
  split
  · exact ⟨_, rfl⟩
  · rw [view_of_le (by omega) (by omega)]
    exact ⟨_, rfl⟩

/-- Whatever the bytes of the page are, the reads end without a panic and touch no
byte outside of it. -/
theorem optimistic_reads_inside : (∃ r, p.tryLowerBound key = .ok r) ∧
      (∃ r, p.tryGetKey i = .ok r ∧ ∀ v ∈ r, v.start ≤ v.stop ∧ v.stop ≤ ps.bytes) ∧
      (∃ r, p.tryGetValue i = .ok r ∧ ∀ v ∈ r, v.start ≤ v.stop ∧ v.stop ≤ ps.bytes) ∧
      ∃ r, p.tryRouteToChild key = .ok r := by
  have hview : ∀ (r : Option (View ps)), ∀ v ∈ r, v.start ≤ v.stop ∧ v.stop ≤ ps.bytes :=
    fun _ v _ => ⟨v.ordered, v.inside⟩
  obtain ⟨rkey, hkey⟩ := harmless_tryGetKey p i
  obtain ⟨rvalue, hvalue⟩ := harmless_tryGetValue p i
  exact ⟨harmless_tryLowerBound p key, ⟨rkey, hkey, hview rkey⟩, ⟨rvalue, hvalue, hview rvalue⟩,
    harmless_tryRouteToChild p key⟩

end

/-! ## On a well-formed page the search is exact -/

theorem trySearch_eq {order : Nat → Attempt Ordering} {cmp : Nat → Option Ordering} {n : Nat}
    (hcmp : ∀ i < n, order i = .ok (cmp i)) {fuel lo hi : Nat} (hfuel : hi - lo < fuel)
    (hhi : hi ≤ n) : trySearch order fuel lo hi = .ok (binarySearch cmp fuel lo hi) := by
  induction fuel generalizing lo hi with
  | zero => omega
  | succ fuel ih =>
    unfold trySearch binarySearch
    split
    · have hmid : lo + (hi - lo) / 2 < hi := by omega
      simp only [hcmp _ (hmid.trans_le hhi)]
      cases cmp (lo + (hi - lo) / 2) with
      | none => rfl
      | some o =>
        cases o with
        | lt => exact ih (by omega) hhi
        | gt => exact ih (by omega) (hmid.le.trans hhi)
        | eq => rfl
    · rfl

namespace WellFormed

variable {p : SlottedPage ps} (h : WellFormed p)

include h

theorem trySlotCopy {i : Nat} (hi : i < p.numSlots) : p.trySlotCopy i = .ok (some (p.slot i)) := by
  have hslot : slotPos i + slotSize ≤ ps.bytes := (slotPos_lt hi).trans h.array
  rw [SlottedPage.trySlotCopy, if_neg (by omega), if_neg (by omega), loadSlot, if_pos hslot]
  rfl

theorem numSlots_le : p.numSlots ≤ ps.bytes / 12 := by
  have harray := h.array
  rw [slotPos_eq] at harray
  omega

theorem tryCompare {i : Nat} (hi : i < p.numSlots) (key : Bytes) :
    p.tryCompare key i = .ok (some (compareSlot p key i)) := by
  have hinside := h.inside i hi
  have hkey : p.tryGetKey i = .ok (some ⟨(p.slot i).offset, (p.slot i).offset + (p.slot i).keyLen,
      Nat.le_add_right .., by omega⟩) := by
    rw [tryGetKey, h.trySlotCopy hi]
    simp only [Attempt.andThen]
    rw [if_neg (by omega), view_of_le (Nat.le_add_right ..) (by omega)]
    rfl
  rw [SlottedPage.tryCompare, h.trySlotCopy hi, hkey, compareSlot]
  simp only [Attempt.andThen]
  cases cmpOf (p.slot i).head (makeHead key) <;> rfl

theorem trySlotKeyU64 {i : Nat} (hi : i < p.numSlots) :
    p.trySlotKeyU64 i = .ok (p.slotKeyU64 i) := by
  rw [SlottedPage.trySlotKeyU64, h.trySlotCopy hi, slotKeyU64]
  simp only [Attempt.andThen]
  split
  · rfl
  split
  · rfl
  have hlen : (p.data.slice (p.slot i).offset ((p.slot i).offset + 8)).length = 8 := by
    rw [Page.length_slice (by omega)]
    omega
  have hread : readBeU64 (p.data.slice (p.slot i).offset ((p.slot i).offset + 8)) =
      .ok (beNat (p.data.slice (p.slot i).offset ((p.slot i).offset + 8))) := if_pos hlen
  rw [view_of_le (Nat.le_add_right ..) (by omega)]
  exact congrArg (Except.map some) hread

theorem tryLowerBoundGeneric (key : Bytes) :
    p.tryLowerBoundGeneric key = .ok (some (p.lowerBoundGeneric key)) := by
  rw [SlottedPage.tryLowerBoundGeneric]
  split
  · rename_i hcount
    rw [SlottedPage.lowerBoundGeneric, hcount]
    rfl
  · rw [if_neg (Nat.not_lt.mpr h.numSlots_le), trySearch_eq (fun i hi => h.tryCompare hi key)
      (by omega) le_rfl, binarySearch_compareSlot]

theorem tryLowerBound (key : Bytes) : p.tryLowerBound key = .ok (some (p.lowerBound key)) := by
  rw [SlottedPage.tryLowerBound, SlottedPage.lowerBound]
  split
  · rw [SlottedPage.tryLowerBoundU64, SlottedPage.lowerBoundU64]
    split
    · rename_i hcount
      rw [hcount]
      rfl
    have hcmp : ∀ i < p.numSlots, Attempt.andThen (p.trySlotKeyU64 i) (fun n =>
        .ok (some (cmpOf n (beNat key)))) =
        .ok ((p.slotKeyU64 i).map fun n => cmpOf n (beNat key)) := by
      intro i hi
      rw [h.trySlotKeyU64 hi]
      cases p.slotKeyU64 i <;> rfl
    rw [if_neg (Nat.not_lt.mpr h.numSlots_le), trySearch_eq hcmp (by omega) le_rfl]
    cases binarySearch (fun i => (p.slotKeyU64 i).map fun n => cmpOf n (beNat key))
        (p.numSlots + 1) 0 p.numSlots with
    | none => exact h.tryLowerBoundGeneric key
    | some r => rfl
  · exact h.tryLowerBoundGeneric key

end WellFormed

/-- Both searches find the first slot whose key is not below the probe, and say
whether it holds the probe. -/
theorem lowerBound_exact {p : SlottedPage ps} (h : WellFormed p) (hsorted : SortedKeys p)
    (key : Bytes) :
    ∃ pos ≤ p.numSlots, (∀ i < pos, p.getKey i < key) ∧
      (∀ i, pos ≤ i → i < p.numSlots → key ≤ p.getKey i) ∧
      p.lowerBound key = (pos, decide (pos < p.numSlots ∧ p.getKey pos = key)) ∧
      p.tryLowerBound key = .ok (some (pos, decide (pos < p.numSlots ∧ p.getKey pos = key))) := by
  have hbound := h.lowerBound hsorted key
  rcases hpair : p.lowerBound key with ⟨pos, exact⟩
  rw [hpair] at hbound
  have hbelow : ∀ i < pos, p.getKey i < key := fun i hi => cmpOf_eq_lt.mp (hbound.below i hi)
  have hflag : exact = decide (pos < p.numSlots ∧ p.getKey pos = key) := by
    cases exact with
    | true =>
      obtain ⟨hlt, heq⟩ := hbound.found rfl
      exact (decide_eq_true ⟨hlt, cmpOf_eq_eq.mp heq⟩).symm
    | false =>
      refine (decide_eq_false ?_).symm
      rintro ⟨hlt, heq⟩
      have hgt := cmpOf_eq_gt.mp (hbound.above rfl pos le_rfl hlt)
      exact absurd hgt (by rw [heq]; exact lt_irrefl key)
  refine ⟨pos, hbound.le, hbelow, ?_, by rw [hflag], ?_⟩
  · intro i hi hlt
    cases exact with
    | true =>
      obtain ⟨hpos, heq⟩ := hbound.found rfl
      rw [← cmpOf_eq_eq.mp heq]
      rcases Nat.eq_or_lt_of_le hi with rfl | hgt
      · exact le_rfl
      · exact (hsorted pos i hgt hlt).le
    | false => exact (cmpOf_eq_gt.mp (hbound.above rfl i hi hlt)).le
  · rw [h.tryLowerBound, hpair, hflag]

def equalHeads : SlottedPage .k4 :=
  (((⟨.zero .k4⟩ : SlottedPage .k4).setNumSlots 2).setSlot 0 ⟨4000, 0, 0, 0⟩).setSlot 1
    ⟨4000, 1, 0, 0⟩

theorem lowerBound_exact_equalHeads :
    ∃ pos ≤ equalHeads.numSlots, (∀ i < pos, equalHeads.getKey i < [0]) ∧
      (∀ i, pos ≤ i → i < equalHeads.numSlots → [0] ≤ equalHeads.getKey i) ∧
      equalHeads.lowerBound [0] =
        (pos, decide (pos < equalHeads.numSlots ∧ equalHeads.getKey pos = [0])) ∧
      equalHeads.tryLowerBound [0] =
        .ok (some (pos, decide (pos < equalHeads.numSlots ∧ equalHeads.getKey pos = [0]))) := by
  have hcount : equalHeads.numSlots = 2 := by decide +kernel
  have hformed : WellFormed equalHeads :=
    { array := by rw [hcount]; decide
      inside := by rw [hcount]; decide +kernel
      head := by rw [hcount]; decide +kernel }
  have hsorted : SortedKeys equalHeads := by
    intro i j hij hj
    obtain ⟨rfl, rfl⟩ : i = 0 ∧ j = 1 := by omega
    decide +kernel
  exact lowerBound_exact hformed hsorted [0]

end Pagebox.Storage
