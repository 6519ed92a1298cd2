import Pagebox.Storage.SlottedEdits

/-!
# Searching a slotted page

On a page with strictly ascending keys `lower_bound` gives the first slot whose
key is not below the probe.  The search compares heads before keys, or `u64` keys
as numbers; both agree with the lexicographic order of the keys.
-/

namespace Pagebox.Storage

open Pagebox.Base SlottedPage

variable {ps : PageSize} {p : SlottedPage ps} {suffix : Nat} {es : List Placed}

def Sorted (es : List Entry) : Prop := es.Pairwise fun a b => a.key < b.key

section Compare

variable {α : Type} [LinearOrder α] [DecidableLT α] [DecidableEq α] {a b : α}

theorem cmpOf_eq_lt : cmpOf a b = .lt ↔ a < b := by
  unfold cmpOf
  split
  · simp [*]
  · split <;> simp [*]

theorem cmpOf_eq_gt : cmpOf a b = .gt ↔ b < a := by
  unfold cmpOf
  split
  · rename_i h
    simp [h.le]
  · split
    · rename_i h
      simp [h]
    · rename_i h h'
      simp [lt_of_le_of_ne (not_lt.mp h) (Ne.symm h')]

theorem cmpOf_eq_eq : cmpOf a b = .eq ↔ a = b := by
  unfold cmpOf
  split
  · rename_i h
    simp [h.ne]
  · split <;> simp [*]

end Compare

/-- A page whose slots can be read: the slot array and the entries lie inside the
page, and every head is that of its key. -/
structure WellFormed (p : SlottedPage ps) : Prop where
  array : slotPos p.numSlots ≤ ps.bytes
  inside : ∀ i < p.numSlots, (p.slot i).offset + (p.slot i).keyLen + (p.slot i).valLen ≤ ps.bytes
  head : ∀ i < p.numSlots, (p.slot i).head = makeHead (p.getKey i)

def SortedKeys (p : SlottedPage ps) : Prop :=
  ∀ i j, i < j → j < p.numSlots → p.getKey i < p.getKey j

def slotOrder (p : SlottedPage ps) (key : Bytes) (i : Nat) : Ordering := cmpOf (p.getKey i) key

theorem ascending_slotOrder (h : SortedKeys p) (key : Bytes) :
    Ascending p.numSlots (slotOrder p key) where
  lt i j hij hj hne := by
    have hlt := h i j hij hj
    rw [slotOrder, Ne, cmpOf_eq_gt, not_lt] at hne
    rw [slotOrder, cmpOf_eq_lt]
    exact hlt.trans_le hne
  gt i j hij hj hne := by
    have hlt := h i j hij hj
    rw [slotOrder, Ne, cmpOf_eq_lt, not_lt] at hne
    rw [slotOrder, cmpOf_eq_gt]
    exact hne.trans_lt hlt

/-- Heads that differ decide the order of the keys. -/
theorem cmpOf_makeHead {a b : Bytes} (h : cmpOf (makeHead a) (makeHead b) ≠ .eq) :
    cmpOf (makeHead a) (makeHead b) = cmpOf a b := by
  have hlen : (firstBytes 4 a).length = (firstBytes 4 b).length := by simp
  have hlen' : (firstBytes 4 b).length = (firstBytes 4 a).length := hlen.symm
  rcases lt_trichotomy (makeHead a) (makeHead b) with hlt | heq | hgt
  · rw [cmpOf_eq_lt.mpr hlt, cmpOf_eq_lt.mpr (lt_of_firstBytes_lt ((beNat_lt_iff hlen).mp hlt))]
  · exact absurd (cmpOf_eq_eq.mpr heq) h
  · rw [cmpOf_eq_gt.mpr hgt, cmpOf_eq_gt.mpr (lt_of_firstBytes_lt ((beNat_lt_iff hlen').mp hgt))]

theorem cmpOf_beNat {a b : Bytes} (hlen : a.length = b.length) :
    cmpOf (beNat a) (beNat b) = cmpOf a b := by
  rcases lt_trichotomy a b with hlt | heq | hgt
  · rw [cmpOf_eq_lt.mpr hlt, cmpOf_eq_lt.mpr ((beNat_lt_iff hlen).mpr hlt)]
  · rw [cmpOf_eq_eq.mpr heq, heq, cmpOf_eq_eq.mpr rfl]
  · rw [cmpOf_eq_gt.mpr hgt, cmpOf_eq_gt.mpr ((beNat_lt_iff hlen.symm).mpr hgt)]

theorem isLowerBound_of_search (hsorted : SortedKeys p) {key : Bytes}
    {cmp : Nat → Option Ordering}
    (hcmp : ∀ i o, i < p.numSlots → cmp i = some o → o = slotOrder p key i) {r : Nat × Bool}
    (h : binarySearch cmp (p.numSlots + 1) 0 p.numSlots = some r) :
    IsLowerBound p.numSlots (slotOrder p key) r.1 r.2 :=
  binarySearch_spec hcmp (ascending_slotOrder hsorted key) (by omega) le_rfl (Nat.zero_le _) nofun
    (fun i hle hlt => absurd hlt (by omega)) h

/-- The comparison of `lower_bound_generic`. -/
def compareSlot (p : SlottedPage ps) (key : Bytes) (i : Nat) : Ordering :=
  match cmpOf (p.slot i).head (makeHead key) with
  | .eq => cmpOf (p.getKey i) key
  | o => o

/-- It compares everywhere, so the search has an answer. -/
theorem binarySearch_compareSlot (p : SlottedPage ps) (key : Bytes) :
    binarySearch (fun i => some (compareSlot p key i)) (p.numSlots + 1) 0 p.numSlots =
      some (p.lowerBoundGeneric key) := by
  have hsome : (binarySearch (fun i => some (compareSlot p key i)) (p.numSlots + 1) 0
      p.numSlots).isSome := binarySearch_isSome (fun _ _ => rfl) _ _ le_rfl
  obtain ⟨r, hr⟩ := Option.isSome_iff_exists.mp hsome
  have hgeneric : p.lowerBoundGeneric key =
      (binarySearch (fun i => some (compareSlot p key i)) (p.numSlots + 1) 0 p.numSlots).getD
        (0, false) := by
    refine congrArg (fun cmp => (binarySearch cmp (p.numSlots + 1) 0 p.numSlots).getD (0, false))
      (funext fun i => ?_)
    unfold compareSlot
    cases cmpOf (p.slot i).head (makeHead key) <;> rfl
  rw [hgeneric, hr]
  rfl

namespace WellFormed

variable (h : WellFormed p)

include h

theorem length_getKey {i : Nat} (hi : i < p.numSlots) :
    (p.getKey i).length = (p.slot i).keyLen := by
  have hinside := h.inside i hi
  rw [getKey, Page.length_slice (by omega)]
  omega

theorem lowerBoundGeneric (hsorted : SortedKeys p) (key : Bytes) :
    IsLowerBound p.numSlots (slotOrder p key) (p.lowerBoundGeneric key).1
      (p.lowerBoundGeneric key).2 := by
  refine isLowerBound_of_search hsorted ?_ (binarySearch_compareSlot p key)
  intro i o hi ho
  cases ho
  rw [compareSlot, slotOrder, h.head i hi]
  split
  · rfl
  · rename_i hne
    exact cmpOf_makeHead hne

theorem slotKeyU64_eq {i : Nat} (hi : i < p.numSlots) :
    p.slotKeyU64 i = if (p.slot i).keyLen = 8 then some (beNat (p.getKey i)) else none := by
  have hinside := h.inside i hi
  rw [slotKeyU64]
  by_cases hlen : (p.slot i).keyLen = 8
  · rw [if_neg (not_not.mpr hlen), if_neg (by omega), if_pos hlen, getKey, hlen]
  · rw [if_pos hlen, if_neg hlen]

theorem lowerBoundU64 (hsorted : SortedKeys p) {key : Bytes} (hkey : key.length = 8) :
    IsLowerBound p.numSlots (slotOrder p key) (p.lowerBoundU64 key).1 (p.lowerBoundU64 key).2 := by
  rw [SlottedPage.lowerBoundU64]
  cases hr : binarySearch (fun i => (p.slotKeyU64 i).map fun n => cmpOf n (beNat key))
      (p.numSlots + 1) 0 p.numSlots with
  | none => exact h.lowerBoundGeneric hsorted key
  | some r =>
    refine isLowerBound_of_search hsorted ?_ hr
    intro i o hi ho
    obtain ⟨n, hn, rfl⟩ := Option.map_eq_some_iff.mp ho
    rw [h.slotKeyU64_eq hi] at hn
    obtain ⟨hlen, hn⟩ := Option.ite_none_right_eq_some.mp hn
    cases hn
    rw [slotOrder, cmpOf_beNat ((h.length_getKey hi).trans (hlen.trans hkey.symm))]

theorem lowerBound (hsorted : SortedKeys p) (key : Bytes) :
    IsLowerBound p.numSlots (slotOrder p key) (p.lowerBound key).1 (p.lowerBound key).2 := by
  rw [SlottedPage.lowerBound]
  split
  · exact h.lowerBoundU64 hsorted ‹_›
  · exact h.lowerBoundGeneric hsorted key

end WellFormed

/-! ## Pages with a known layout -/

def keyOrder (es : List Entry) (key : Bytes) (i : Nat) : Ordering :=
  match es[i]? with
  | none => .gt
  | some e => cmpOf e.key key

theorem keyOrder_of_lt {es : List Entry} {i : Nat} (hi : i < es.length) (key : Bytes) :
    keyOrder es key i = cmpOf es[i].key key := by
  rw [keyOrder, List.getElem?_eq_getElem hi]

theorem Layout.wellFormed (h : Layout suffix es p) : WellFormed p where
  array := by
    have := h.count_le
    rw [h.count]
    omega
  inside i hi := by
    rw [h.count] at hi
    have hstop := (h.inside _ (List.getElem_mem hi)).2
    rw [Placed.stop, Entry.len] at hstop
    rw [h.slots i es[i] (List.getElem?_eq_getElem hi), Placed.slot]
    simp only
    omega
  head i hi := by
    rw [h.count] at hi
    rw [h.slots i es[i] (List.getElem?_eq_getElem hi), getKey_eq h hi, Placed.slot]

theorem Layout.sortedKeys (h : Layout suffix es p) (hsorted : Sorted (entriesOf es)) :
    SortedKeys p := by
  intro i j hij hj
  rw [h.count] at hj
  have hlen : (entriesOf es).length = es.length := length_entriesOf es
  have hlt := List.pairwise_iff_getElem.mp hsorted i j (by omega) (by omega) hij
  rw [getKey_eq h (hij.trans hj), getKey_eq h hj]
  simpa [entriesOf] using hlt

theorem lowerBound_spec (h : Layout suffix es p) (hsorted : Sorted (entriesOf es)) (key : Bytes) :
    IsLowerBound es.length (keyOrder (entriesOf es) key) (p.lowerBound key).1
      (p.lowerBound key).2 := by
  have hbound := h.wellFormed.lowerBound (h.sortedKeys hsorted) key
  rw [h.count] at hbound
  refine hbound.congr fun i hi => ?_
  rw [keyOrder_of_lt (by rwa [length_entriesOf]), slotOrder, getKey_eq h hi]
  simp only [entriesOf, List.getElem_map]

end Pagebox.Storage
