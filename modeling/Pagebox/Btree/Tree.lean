import Mathlib.Logic.Function.Basic
import Pagebox.Btree.Node
import Pagebox.Storage.SlottedPage

/-!
# The tree and its descents

The state of a `BTree` that one thread uses: the content of its pages, the stable
root page, the two counters and the page id the pool hands out next.  Keys and
values are arbitrary; what the tree needs of them is the order of the keys and the
lengths in bytes, which a `Format` gives.

A page the tree gives up keeps its content and is not handed out again.
-/

namespace Pagebox.Btree

open Pagebox.Storage

/-- The page size, and the bytes a key and a value take. -/
structure Format (κ ν : Type) where
  ps : PageSize
  keyLen : κ → Nat
  valLen : ν → Nat

/-- `free_space_after_compaction` of a page with a reserved suffix and entries of
these lengths. -/
def freeSpace (ps : PageSize) (suffix : Nat) (lens : List Nat) : Nat :=
  ps.bytes - (slotPos lens.length + (suffix + lens.sum))

def underfullThreshold (ps : PageSize) : Nat := ps.bytes * 60 / 100

variable {κ ν : Type}

namespace Format

variable (F : Format κ ν)

def entryLen (entry : κ × ν) : Nat := F.keyLen entry.1 + F.valLen entry.2

def slotLen (slot : κ × Nat) : Nat := F.keyLen slot.1 + 8

def leafFree (entries : List (κ × ν)) : Nat := freeSpace F.ps 16 (entries.map F.entryLen)

def innerFree (slots : List (κ × Nat)) : Nat := freeSpace F.ps 8 (slots.map F.slotLen)

def canInsertEntry (entries : List (κ × ν)) (entry : κ × ν) : Bool :=
  slotSize + F.entryLen entry ≤ F.leafFree entries

def canInsertSeparator (slots : List (κ × Nat)) (key : κ) : Bool :=
  slotSize + (F.keyLen key + 8) ≤ F.innerFree slots

end Format

structure BTree (κ ν : Type) where
  pages : Nat → Node κ ν
  root : Nat
  height : Nat
  reachablePages : Nat
  /-- The page id the next `allocate_unlinked` returns. -/
  next : Nat

/-- How a call can fail to return: it panics, or it is still running when the fuel
of the model is used up. -/
inductive Stop
  | panic
  | running
  deriving DecidableEq

namespace BTree

/-- `BTree::new` on an allocator whose next page is `root`. -/
def new (root : Nat) : BTree κ ν where
  pages := Function.update (fun _ => .blank) root .init
  root := root
  height := 0
  reachablePages := 1
  next := root + 1

variable (t : BTree κ ν)

def write (pid : Nat) (node : Node κ ν) : BTree κ ν :=
  { t with pages := Function.update t.pages pid node }

def children (pid : Nat) : List Nat := (t.pages pid).children

def entries (pid : Nat) : List (κ × ν) :=
  match t.pages pid with
  | .leaf entries _ _ => entries
  | _ => []

/-- `leaf_left_pid`; 0 where there is none. -/
def leftPid (pid : Nat) : Nat :=
  match t.pages pid with
  | .leaf _ left _ => left
  | _ => 0

/-- `leaf_right_pid`; 0 where there is none. -/
def rightPid (pid : Nat) : Nat :=
  match t.pages pid with
  | .leaf _ _ right => right
  | _ => 0

/-- `update_leaf_left_sibling`; the left link of a leaf and the upper edge of an
inner node are the same bytes. -/
def updateLeafLeftSibling (leaf left : Nat) : BTree κ ν :=
  if leaf = 0 then t
  else match t.pages leaf with
    | .leaf entries _ right => t.write leaf (.leaf entries left right)
    | .inner slots _ => t.write leaf (.inner slots left)
    | .blank => t

section

variable [LinearOrder κ] (key : κ)

def descend : Nat → Nat → List Nat → List Nat × Nat
  | 0, pid, path => (path, pid)
  | fuel + 1, pid, path =>
    match t.pages pid with
    | .inner slots upper => descend fuel (Node.routeToChild slots upper key) (pid :: path)
    | _ => (path, pid)

/-- Follow right links while `should_chase_right`. -/
def chaseRight : Nat → Nat → Nat
  | 0, pid => pid
  | fuel + 1, pid =>
    if Node.shouldChaseRight (t.entries pid) (t.rightPid pid) key then
      chaseRight fuel (t.rightPid pid)
    else pid

def routed : List Nat × Nat := t.descend key t.next t.root []

/-- `find_leaf_exclusive`, which `find_leaf_exclusive_from_fixed_root`,
`find_leaf_exclusive_fallback` and `find_leaf_optimistic` agree with when nobody
else changes the tree. -/
def findLeaf : Nat := t.chaseRight key t.next (t.routed key).2

/-- `find_leaf_exclusive_with_path`: an empty leaf is returned and not left to the
right, any other leaf to be left asks for a restart. -/
def findLeafWithPath : Option (List Nat × Nat) :=
  let (path, leaf) := t.routed key
  if Node.shouldChaseRight (t.entries leaf) (t.rightPid leaf) key && !(t.entries leaf).isEmpty then
    none
  else some (path, leaf)

/-- `find_leaf_exclusive_with_path_fallback`: the path is the one to the leaf the
descent met first. -/
def findLeafWithPathFallback : List Nat × Nat := ((t.routed key).1, t.findLeaf key)

def findLeafForWrite (attempts : Nat) : Option (List Nat × Nat) :=
  if 16 ≤ attempts then some (t.findLeafWithPathFallback key) else t.findLeafWithPath key

end

end BTree

end Pagebox.Btree
