import Mathlib.Data.List.Basic
import Pagebox.Btree.Tree

/-!
# Splits and the calls that write

`split_node` for the three kinds of leaves and for inner nodes, the publication of
a separator in the parent, and `insert` and `upsert`.  A split that finds its
parent full splits the parent first, which publishes a separator of its own; the
model follows that recursion to a depth given as fuel.

Parents are found by the identity of the child.  One attempt of the publication
looks in four places: the page the descent came from, the root, the pages a search
reaches through resident pages, and those a search reaches that may load pages.
-/

namespace Pagebox.Btree

open Function

variable {κ ν : Type}

/-! ## Entries of a leaf -/

structure LeafSplit (κ ν : Type) where
  left : List (κ × ν)
  sep : κ
  right : List (κ × ν)
  /-- Whether the pending entry is among them. -/
  installed : Bool

section

variable [LinearOrder κ] (F : Format κ ν) (entry : κ × ν)

variable (entries : List (κ × ν))

def leafInsertBound (key : κ) : Nat × Bool :=
  match entries.getLast? with
  | none => (0, false)
  | some last =>
    if last.1 < key then (entries.length, false)
    else if key = last.1 then (entries.length - 1, true)
    else Node.lowerBound entries key

/-- `try_insert_leaf`: the entries afterwards and the result of the call; `none` is
`SplitRequired`. -/
def tryInsertLeaf : Option (List (κ × ν) × Bool) :=
  let (pos, exact) := leafInsertBound entries entry.1
  if exact then some (entries, false)
  else if F.canInsertEntry entries entry then some (entries.insertIdx pos entry, true)
  else none

def tryUpsertLeaf : Option (List (κ × ν) × Bool) :=
  let (pos, exact) := leafInsertBound entries entry.1
  match exact, entries[pos]? with
  | true, some old =>
    if F.valLen old.2 = F.valLen entry.2 then some (entries.set pos (old.1, entry.2), false)
    else if F.entryLen entry ≤ F.leafFree entries + (F.keyLen entry.1 + F.valLen old.2) then
      some ((entries.eraseIdx pos).insertIdx pos entry, false)
    else none
  | _, _ =>
    if F.canInsertEntry entries entry then some (entries.insertIdx pos entry, true) else none

def installPending : Except Stop (List (κ × ν)) :=
  let (pos, exact) := Node.lowerBound entries entry.1
  -- "split pending key must be absent"
  if exact then .error .panic
  else if F.canInsertEntry entries entry then .ok (entries.insertIdx pos entry)
  else .error .panic

/-- The part of `split_node` that divides the entries of a leaf.  No entry that fits
an empty leaf asks for a split of one. -/
def splitEntries : List (κ × ν) → Except Stop (LeafSplit κ ν)
  | [] => .error .panic
  | [existing] =>
    if F.canInsertEntry [] entry then
      if entry.1 < existing.1 then .ok ⟨[entry], entry.1, [existing], true⟩
      else .ok ⟨[existing], existing.1, [entry], true⟩
    else .error .panic
  | [first, second] =>
    let splitPos := if second.1 ≤ entry.1 then 1 else 0
    let sep := if second.1 ≤ entry.1 then second.1 else first.1
    let left := [first, second].take (splitPos + 1)
    let right := [first, second].drop (splitPos + 1)
    if entry.1 ≤ sep then do
      let left ← installPending F entry left
      return ⟨left, sep, right, true⟩
    else do
      let right ← installPending F entry right
      return ⟨left, sep, right, true⟩
  | first :: rest =>
    let entries := first :: rest
    let splitPos := entries.length / 2
    let sep := (entries[splitPos]?.getD first).1
    .ok ⟨entries.take (splitPos + 1), sep, entries.drop (splitPos + 1), false⟩

end

/-! ## Edges of an inner node -/

/-- `child_edge_for`, as a position; the number of slots stands for the upper edge. -/
def childEdge (slots : List (κ × Nat)) (upper child : Nat) : Option Nat :=
  match slots.findIdx? fun slot => slot.2 = child with
  | some pos => some pos
  | none => if upper = child then some slots.length else none

def setChild (slots : List (κ × Nat)) (pos child : Nat) : List (κ × Nat) :=
  slots.modify pos fun slot => (slot.1, child)

/-- `apply_split_to_latched_parent` at the edge of the left page. -/
def applySplit (slots : List (κ × Nat)) (upper pos : Nat) (sep : κ) (left right : Nat) : Node κ ν :=
  if pos < slots.length then .inner ((setChild slots pos right).insertIdx pos (sep, left)) upper
  else .inner (slots.insertIdx slots.length (sep, left)) right

namespace BTree

inductive Search
  | path
  | root
  | resident
  | all
  deriving DecidableEq

def searchParent (t : BTree κ ν) (visit : Nat → Bool) (child : Nat) : Nat → Nat → Option Nat
  | 0, _ => none
  | fuel + 1, pid =>
    match t.pages pid with
    | .inner slots upper =>
      if (childEdge slots upper child).isSome then some pid
      else ((t.children pid).filter fun c => visit c && c ≠ child).findSome?
        fun c => searchParent t visit child fuel c
    | _ => none

section

variable (F : Format κ ν) (resident : Nat → Bool)
  (split : BTree κ ν → Nat → List Nat → Except Stop (BTree κ ν))
  (sep : κ) (left right : Nat) (path : List Nat)

def parentCandidate (t : BTree κ ν) : Search → Option Nat
  | .path => path.head?
  | .root => some t.root
  | .resident => t.searchParent resident left t.next t.root
  | .all => t.searchParent (fun _ => true) left t.next t.root

def restOfPath : Search → List Nat
  | .path => path.tail
  | _ => []

/-- One of the four `try_publish_leaf_split_via_*`. -/
def tryPublish (t : BTree κ ν) (search : Search) : Except Stop (BTree κ ν × Bool) :=
  match parentCandidate resident left path t search with
  | none => .ok (t, false)
  | some parent =>
    match t.pages parent with
    | .inner slots upper =>
      match childEdge slots upper left with
      | none => .ok (t, false)
      | some pos =>
        if F.canInsertSeparator slots sep then
          .ok (t.write parent (applySplit slots upper pos sep left right), true)
        else do
          let t' ← split t parent (restOfPath path search)
          return (t', false)
    | _ => .ok (t, false)

def publishVia : List Search → BTree κ ν → Except Stop (BTree κ ν × Bool)
  | [], t => .ok (t, false)
  | search :: rest, t => do
      let (t', done) ← tryPublish F resident split sep left right path t search
      if done then return (t', true) else publishVia rest t'

/-- `publish_leaf_split_to_parent`; only the first attempt uses the path. -/
def publishLeafSplitToParent : Nat → List Search → BTree κ ν → Except Stop (BTree κ ν)
  | 0, _, _ => .error .panic
  | attempts + 1, searches, t => do
      let (t', done) ← publishVia F resident split sep left right path searches t
      if done then return t' else publishLeafSplitToParent attempts [.root, .resident, .all] t'

def publishBudget : Nat := 100000

def publish (t : BTree κ ν) : Except Stop (BTree κ ν) :=
  publishLeafSplitToParent F resident split sep left right path publishBudget
    [.path, .root, .resident, .all] t

end

def splitStableRoot (t : BTree κ ν) (sep : κ) (left right : Node κ ν) : BTree κ ν :=
  { t with
    pages := update (update (update t.pages t.next right)
      (t.next + 1) left) t.root (.inner [(sep, t.next + 1)] t.next)
    height := t.height + 1
    reachablePages := t.reachablePages + 2
    next := t.next + 2 }

def splitPage (t : BTree κ ν) (pid : Nat) (left right : Node κ ν) : BTree κ ν :=
  { t with
    pages := update (update t.pages t.next right) pid left
    reachablePages := t.reachablePages + 1
    next := t.next + 1 }

def splitInner (F : Format κ ν) (resident : Nat → Bool) :
    Nat → BTree κ ν → Nat → List Nat → Except Stop (BTree κ ν)
  | 0, _, _, _ => .error .running
  | depth + 1, t, pid, path =>
    match t.pages pid with
    | .inner slots upper =>
      match slots[slots.length / 2]? with
      | none => .ok t
      | some (sep, child) =>
        let left := .inner (slots.take (slots.length / 2)) child
        let right := .inner (slots.drop (slots.length / 2 + 1)) upper
        if slots.length < 2 then .ok t
        else if pid = t.root then
          if F.canInsertSeparator [] sep then .ok (t.splitStableRoot sep left right)
          else .error .panic
        else
          publish F resident (splitInner F resident depth) sep pid t.next path
            (t.splitPage pid left right)
    | _ => .ok t

section

variable [LinearOrder κ] (F : Format κ ν) (resident : Nat → Bool)

/-- `split_node` of a leaf; says whether the pending entry was installed. -/
def splitLeaf (depth : Nat) (t : BTree κ ν) (pid : Nat) (path : List Nat) (pending : κ × ν) :
    Except Stop (BTree κ ν × Bool) :=
  match t.pages pid with
  | .leaf entries left right => do
      let s ← splitEntries F pending entries
      if pid = t.root then
        if F.canInsertSeparator [] s.sep then
          let t' := t.splitStableRoot s.sep (.leaf s.left left t.next)
            (.leaf s.right (t.next + 1) right)
          return (t'.updateLeafLeftSibling right t.next, s.installed)
        else .error .panic
      else do
        let t' := t.splitPage pid (.leaf s.left left t.next) (.leaf s.right pid right)
        let t'' ← publish F resident (splitInner F resident depth) s.sep pid t.next path
          (t'.updateLeafLeftSibling right t.next)
        return (t'', s.installed)
  | _ => .ok (t, false)

/-! ## `insert` and `upsert` -/

def setEntries (t : BTree κ ν) (pid : Nat) (entries : List (κ × ν)) : BTree κ ν :=
  t.write pid (.leaf entries (t.leftPid pid) (t.rightPid pid))

/-- The loop of both calls, which differ in what they try on a leaf. -/
def writeLoop (tryLeaf : List (κ × ν) → Option (List (κ × ν) × Bool)) (pending : κ × ν) :
    Nat → Nat → BTree κ ν → Except Stop (BTree κ ν × Bool)
  | 0, _, _ => .error .running
  | fuel + 1, attempts, t =>
    match tryLeaf (t.entries (t.findLeaf pending.1)) with
    | some (entries, result) => .ok (t.setEntries (t.findLeaf pending.1) entries, result)
    | none =>
      match t.findLeafForWrite pending.1 attempts with
      | none => writeLoop tryLeaf pending fuel (attempts + 1) t
      | some (path, leaf) =>
        match tryLeaf (t.entries leaf) with
        | some (entries, result) => .ok (t.setEntries leaf entries, result)
        | none => do
            let (t', installed) ← splitLeaf F resident fuel t leaf path pending
            if installed then return (t', true)
            else writeLoop tryLeaf pending fuel attempts t'

def insert (fuel : Nat) (t : BTree κ ν) (key : κ) (value : ν) : Except Stop (BTree κ ν × Bool) :=
  writeLoop F resident (tryInsertLeaf F (key, value)) (key, value) fuel 0 t

def upsert (fuel : Nat) (t : BTree κ ν) (key : κ) (value : ν) : Except Stop (BTree κ ν × Bool) :=
  writeLoop F resident (tryUpsertLeaf F (key, value)) (key, value) fuel 0 t

end

end BTree

end Pagebox.Btree
