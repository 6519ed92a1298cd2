import Mathlib.Order.Compare
import Pagebox.Base.Search

/-!
# Nodes of the B+tree

The content of a page as the tree reads it.  The entries of a leaf and the slots of
an inner node are in the order of their slots; an edge is the page id of the child,
0 where there is none.
-/

namespace Pagebox.Btree

open Pagebox.Base

inductive Node (κ ν : Type)
  /-- A page of zeros, which no `BTreeNode::init` has formatted. -/
  | blank
  | leaf (entries : List (κ × ν)) (left right : Nat)
  | inner (slots : List (κ × Nat)) (upper : Nat)
  deriving DecidableEq

variable {κ ν : Type}

namespace Node

def init : Node κ ν := .leaf [] 0 0

def children : Node κ ν → List Nat
  | .inner slots upper => slots.map Prod.snd ++ [upper]
  | _ => []

variable [LinearOrder κ]

/-- `lower_bound`: a position, and whether it holds the key. -/
def lowerBound {α : Type} (slots : List (κ × α)) (key : κ) : Nat × Bool :=
  let order i := slots[i]?.map fun slot => cmp slot.1 key
  (binarySearch order (slots.length + 1) 0 slots.length).getD (0, false)

def routeToChild (slots : List (κ × Nat)) (upper : Nat) (key : κ) : Nat :=
  match slots[(lowerBound slots key).1]? with
  | some slot => slot.2
  | none => upper

def shouldChaseRight (entries : List (κ × ν)) (right : Nat) (key : κ) : Bool :=
  right ≠ 0 && match entries.getLast? with
    | none => true
    | some last => last.1 < key

end Node

variable [LinearOrder κ]

end Pagebox.Btree
