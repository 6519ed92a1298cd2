import Pagebox.Btree.Splits

/-!
# Merges and `remove`

After a removal an underfull leaf is merged with a neighbour under the same parent,
if that neighbour is resident; the parent may then be merged in turn, and a root
without separators is replaced by its only child.  Where no merge was tried, the
separator above a leaf that lost its largest key is repaired.

A merge always empties the right page of a pair into the left one, whichever of
the two it started from, so the functions for a merge with the right and with the
left neighbour are one function of the position of the left page.
-/

namespace Pagebox.Btree

variable {κ ν : Type} (F : Format κ ν)

/-- Whether entries of these lengths can be copied one after another to a page that
holds `done`. -/
def copyFits (ps : PageSize) (suffix : Nat) : List Nat → List Nat → Bool
  | _, [] => true
  | done, len :: rest =>
    Storage.slotSize + len ≤ freeSpace ps suffix done && copyFits ps suffix (done ++ [len]) rest

def leafPairFits (left right : List (κ × ν)) : Bool :=
  copyFits F.ps 16 [] ((left ++ right).map F.entryLen)

def mergedSlots (left : List (κ × Nat)) (upper : Nat) (boundary : κ) (right : List (κ × Nat)) :
    List (κ × Nat) :=
  left ++ (boundary, upper) :: right

def innerPairFits (left : List (κ × Nat)) (upper : Nat) (boundary : κ)
    (right : List (κ × Nat)) : Bool :=
  copyFits F.ps 8 [] ((mergedSlots left upper boundary right).map F.slotLen)

/-- The order test of `leaf_pair_is_mergeable`. -/
def inOrderPair [LinearOrder κ] (left right : List (κ × ν)) : Bool :=
  match left.getLast?, right.head? with
  | some max, some min => max.1 ≤ min.1
  | _, _ => true

/-- `set_separator_key`: the slot is removed and inserted again, which panics where
the new key does not fit. -/
def setSeparatorKey (slots : List (κ × Nat)) (pos : Nat) (key : κ) : Except Stop (List (κ × Nat)) :=
  match slots[pos]? with
  | none => .error .panic
  | some slot =>
    if F.canInsertSeparator (slots.eraseIdx pos) key then
      .ok ((slots.eraseIdx pos).insertIdx pos (key, slot.2))
    else .error .panic

/-- `unlink_merged_right_leaf`, `unlink_merged_left_leaf`, `unlink_merged_right_inner`
and `unlink_merged_left_inner`: the edge at `pos` stays and takes the key, the edge
after it goes. -/
def unlinkMerged (slots : List (κ × Nat)) (upper pos merged : Nat) (key : Option κ) :
    Except Stop (Node κ ν) :=
  if pos + 1 = slots.length then .ok (.inner (slots.eraseIdx pos) merged)
  else match key with
    | none => .ok (.inner (slots.eraseIdx (pos + 1)) upper)
    | some key => do
        let slots ← setSeparatorKey F slots pos key
        return .inner (slots.eraseIdx (pos + 1)) upper

/-- Which pair a page at `pos` is merged in: with its right neighbour, else with its
left one.  A neighbour that is not resident ends the attempt. -/
def mergeChoice (resident : Nat → Bool) (children : List Nat) (fits : Nat → Bool) (pos : Nat) :
    Option Nat :=
  let withLeft :=
    if 0 < pos ∧ resident (children.getD (pos - 1) 0) ∧ fits (pos - 1) then some (pos - 1) else none
  if pos + 1 < children.length then
    if resident (children.getD (pos + 1) 0) then
      if fits pos then some pos else withLeft
    else none
  else withLeft

namespace BTree

variable {F}

def isUnderfullLeaf (F : Format κ ν) (t : BTree κ ν) (pid : Nat) : Bool :=
  underfullThreshold F.ps < F.leafFree (t.entries pid)

variable (t : BTree κ ν)

def slots (pid : Nat) : List (κ × Nat) :=
  match t.pages pid with
  | .inner slots _ => slots
  | _ => []

def upper (pid : Nat) : Nat :=
  match t.pages pid with
  | .inner _ upper => upper
  | _ => 0

def child (pid pos : Nat) : Nat := (t.children pid).getD pos 0

def isUnderfullInner (F : Format κ ν) (t : BTree κ ν) (pid : Nat) : Bool :=
  underfullThreshold F.ps < F.innerFree (t.slots pid)

def collapseEmptyRootToChild (child : Nat) : BTree κ ν :=
  { t.write t.root (t.pages child) with
    height := t.height - 1
    reachablePages := t.reachablePages - 1 }

/-- The parent of a merged pair is written, and one page less is reachable. -/
def unlink (parent : Nat) (node : Node κ ν) : BTree κ ν :=
  { t.write parent node with reachablePages := t.reachablePages - 1 }

section

variable (F : Format κ ν) (resident : Nat → Bool)

/-- `merge_inner_pages_into_left` for the children at `pos` and `pos + 1`. -/
def mergeInnerPair (t : BTree κ ν) (parent pos : Nat) (boundary : κ) : BTree κ ν :=
  let left := t.child parent pos
  let right := t.child parent (pos + 1)
  t.write left (.inner (mergedSlots (t.slots left) (t.upper left) boundary (t.slots right))
    (t.upper right))

def innerFitsAt (t : BTree κ ν) (parent : Nat) (pos : Nat) : Bool :=
  match (t.slots parent)[pos]? with
  | none => false
  | some slot =>
    innerPairFits F (t.slots (t.child parent pos)) (t.upper (t.child parent pos)) slot.1
      (t.slots (t.child parent (pos + 1)))

def mergeInnerAt (t : BTree κ ν) (parent pos : Nat) : Except Stop (BTree κ ν) :=
  match (t.slots parent)[pos]? with
  | none => .error .panic
  | some slot => do
      let node ← unlinkMerged F (t.slots parent) (t.upper parent) pos (t.child parent pos)
        ((t.slots parent)[pos + 1]?.map Prod.fst)
      return (t.mergeInnerPair parent pos slot.1).unlink parent node

/-- `try_merge_inner_with_path`; its callers do not look at the result. -/
def tryMergeInnerWithPath : List Nat → BTree κ ν → Nat → Except Stop (BTree κ ν)
  | [], t, _ => .ok t
  | parent :: path, t, node =>
    match childEdge (t.slots parent) (t.upper parent) node with
    | none => .ok t
    | some pos =>
      match mergeChoice resident (t.children parent) (t.innerFitsAt F parent) pos with
      | none => .ok t
      | some pos => do
          let t' ← mergeInnerAt F t parent pos
          if parent = t.root then
            if t'.slots parent = [] then
              return t'.collapseEmptyRootToChild (t.child parent pos)
            else return t'
          else if t'.isUnderfullInner F parent then tryMergeInnerWithPath path t' parent
          else return t'

section

variable [LinearOrder κ]

variable (t : BTree κ ν)

def leafFitsAt (parent : Nat) (pos : Nat) : Bool :=
  let left := t.child parent pos
  let right := t.child parent (pos + 1)
  left ≠ right && t.rightPid left = right &&
    inOrderPair (t.entries left) (t.entries right) &&
    leafPairFits F (t.entries left) (t.entries right)

def mergeLeafPair (parent pos : Nat) : BTree κ ν :=
  let left := t.child parent pos
  let right := t.child parent (pos + 1)
  t.write left (.leaf (t.entries left ++ t.entries right) (t.leftPid left) (t.rightPid right))

/-- The part of `try_merge_leaf_with_path` that merges the pair at `pos`; the edge
kept takes the largest key of the merged leaf. -/
def mergeLeafAt (parent pos : Nat) : Except Stop (BTree κ ν) := do
  let merged := t.entries (t.child parent pos) ++ t.entries (t.child parent (pos + 1))
  let node ← unlinkMerged F (t.slots parent) (t.upper parent) pos (t.child parent pos)
    (merged.getLast?.map Prod.fst)
  return (t.mergeLeafPair parent pos).unlink parent node

/-- `try_merge_leaf_with_path`; the successor's left link is written last. -/
def tryMergeLeafWithPath (path : List Nat) (t : BTree κ ν) (leaf : Nat) :
    Except Stop (BTree κ ν × Bool) :=
  match path with
  | [] => .ok (t, false)
  | parent :: path =>
    match childEdge (t.slots parent) (t.upper parent) leaf with
    | none => .ok (t, false)
    | some pos =>
      match mergeChoice resident (t.children parent) (t.leafFitsAt F parent) pos with
      | none => .ok (t, false)
      | some pos => do
          let merged := t.child parent pos
          let successor := t.rightPid (t.child parent (pos + 1))
          let t' ← mergeLeafAt F t parent pos
          let t'' ←
            if parent = t.root then
              if t'.slots parent = [] then
                .ok (t'.collapseEmptyRootToChild merged)
              else .ok t'
            else if t'.isUnderfullInner F parent then
              tryMergeInnerWithPath F resident path t' parent
            else .ok t'
          return (t''.updateLeafLeftSibling successor merged, true)

/-- `repair_separators_after_delete`: the first ancestor whose edge to the path is
not the upper one takes the new maximum. -/
def repairSeparatorsAfterDelete (newMax : Option κ) :
    List Nat → BTree κ ν → Nat → Except Stop (BTree κ ν)
  | [], t, _ => .ok t
  | parent :: path, t, child =>
    match childEdge (t.slots parent) (t.upper parent) child with
    | none => .ok t
    | some pos =>
      match (t.slots parent)[pos]?, newMax with
      | some slot, some key =>
        if slot.1 = key then .ok t
        else do
          let slots ← setSeparatorKey F (t.slots parent) pos key
          return t.write parent (.inner slots (t.upper parent))
      | some _, none => .ok t
      | none, _ => repairSeparatorsAfterDelete newMax path t parent

/-- `rebalance_delete_path`.  A merge that was tried has taken the parent from the
path, whether or not it merged anything. -/
def rebalanceDeletePath (path : List Nat) (t : BTree κ ν) (leaf : Nat) (deletedWasMax : Bool)
    (newMax : Option κ) : Except Stop (BTree κ ν) :=
  if t.isUnderfullLeaf F leaf then do
    let (t', merged) ← tryMergeLeafWithPath F resident path t leaf
    if deletedWasMax && !merged then repairSeparatorsAfterDelete F newMax path.tail t' leaf
    else return t'
  else if deletedWasMax then repairSeparatorsAfterDelete F newMax path t leaf
  else .ok t

def removeFrom (key : κ) (path : List Nat) (leaf : Nat) : Except Stop (BTree κ ν × Bool) :=
  let (pos, exact) := Node.lowerBound (t.entries leaf) key
  if exact then do
    let entries := (t.entries leaf).eraseIdx pos
    let deletedWasMax := pos + 1 = (t.entries leaf).length
    let newMax := if deletedWasMax then entries.getLast?.map Prod.fst else none
    let t' ← rebalanceDeletePath F resident path (t.setEntries leaf entries) leaf deletedWasMax
      newMax
    return (t', true)
  else .ok (t, false)

/-- `remove`; a restart finds the same leaf until the fallback is used. -/
def remove (key : κ) : Except Stop (BTree κ ν × Bool) :=
  let (path, leaf) := (t.findLeafWithPath key).getD (t.findLeafWithPathFallback key)
  removeFrom F resident t key path leaf

end

end

end BTree

end Pagebox.Btree
