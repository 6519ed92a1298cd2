import Pagebox.Storage.FreeExtents

/-!
# Histories of the central freelist

Any sequence of inserts and best-fit allocations on `CentralInner`, with the extents that
were inserted and the ones that were returned.
-/

namespace Pagebox.Storage.FreePageAllocator.CentralInner

open Pagebox.Base

inductive Op
  | insert (e : FreeExtent)
  | allocate (len : Nat)

inductive Event
  | inserted (e : FreeExtent)
  | allocated (e : FreeExtent)

/-- The pages inserted and not yet allocated; the last event comes first. -/
def livePages : List Event → Set Nat
  | [] => ∅
  | .inserted e :: events => extentPages e ∪ livePages events
  | .allocated e :: events => livePages events \ extentPages e

structure History where
  inner : CentralInner
  events : List Event

def History.start : History := ⟨CentralInner.new, []⟩

/-- A call that returns.  `none` is a panic and ends the history: an `insert` that panics
has already removed the left neighbour. -/
def History.step (s : History) : Op → Option History
  | .insert e => (s.inner.insert e).map fun c => ⟨c, .inserted e :: s.events⟩
  | .allocate len => (s.inner.allocateBestFit len).map fun (found, c) =>
      ⟨c, (found.toList.map .allocated) ++ s.events⟩

/-- Extents are inserted that `FreeExtent::new` could have made and whose end fits.  The
fields of `FreeExtent` are public, so a caller may pass others; those are left out. -/
def Op.Valid (_ : History) : Op → Prop
  | .insert e => e.Valid
  | .allocate _ => True

section

variable {s s' : History}

theorem history_ok (h : Reach History.step Op.Valid History.start s) :
    s.inner.Ok ∧ listPages s.inner.byStartPageNumber = livePages s.events := by
  refine h.invariant (I := fun s => s.inner.Ok ∧
    listPages s.inner.byStartPageNumber = livePages s.events) ⟨ok_new, listPages_nil⟩ ?_
  rintro s op s' ⟨hok, hpages⟩ hvalid hstep
  cases op with
  | insert e =>
    obtain ⟨c, hc, rfl⟩ := Option.map_eq_some_iff.mp hstep
    obtain ⟨hok', -, hpages'⟩ := (insert_spec hok hvalid).2 c hc
    exact ⟨hok', hpages'.trans (congrArg _ hpages)⟩
  | allocate len =>
    obtain ⟨⟨found, c⟩, hc, rfl⟩ := Option.map_eq_some_iff.mp hstep
    rcases allocateBestFit_spec hok hc with ⟨rfl, rfl, -⟩ | ⟨x, -, rfl, -, -, -, hok', -, hpages'⟩
    · exact ⟨hok, hpages⟩
    · exact ⟨hok', hpages'.trans (congrArg (· \ extentPages _) hpages)⟩

theorem allocate_returns {c : CentralInner} {len : Nat} (hok : c.Ok) (hlen : 0 < len) :
    ∃ found c', c.allocateBestFit len = some (found, c') := by
  unfold allocateBestFit
  split
  · exact ⟨none, c, rfl⟩
  rename_i x hx
  obtain ⟨hmem, hlong⟩ := List.mem_filter.mp ((minByLen_spec _).2 x hx).1
  have hpos := (hok.canonical.valid x hmem).1
  have hsplit : x.splitHead len =
      some (⟨x.startPageNumber, len⟩, ⟨x.startPageNumber + len, x.len - len⟩) := by
    rw [FreeExtent.splitHead, if_pos ⟨hlen, of_decide_eq_true hlong⟩, FreeExtent.new,
      if_pos ⟨hpos, hlen⟩]
    rfl
  rw [hsplit]
  exact ⟨_, _, rfl⟩

/-- After any sequence of calls the extents stand in order, none overlapping or adjacent to
another; they hold the pages that are live, and the counter is their total length.  An
insert panics exactly when the new extent overlaps one of them; an allocation returns the
head of a shortest extent that is long enough, and nothing only when there is none. -/
theorem central_canonical (h : Reach History.step Op.Valid History.start s) :
    s.inner.byStartPageNumber.Pairwise (fun a b => a.startPageNumber + a.len < b.startPageNumber) ∧
      listPages s.inner.byStartPageNumber = livePages s.events ∧
      s.inner.freeBasePages = (s.inner.byStartPageNumber.map FreeExtent.len).sum ∧
      (∀ e, FreeExtent.Valid e → (s.inner.insert e = none ↔
        ∃ x ∈ s.inner.byStartPageNumber, ∃ p, x.Contains p ∧ e.Contains p)) ∧
      ∀ len, 0 < len → ∃ found c', s.inner.allocateBestFit len = some (found, c') ∧
        ((found = none ∧ ∀ x ∈ s.inner.byStartPageNumber, x.len < len) ∨
          ∃ x ∈ s.inner.byStartPageNumber, found = some ⟨x.startPageNumber, len⟩ ∧ len ≤ x.len ∧
            ∀ y ∈ s.inner.byStartPageNumber, len ≤ y.len → x.len ≤ y.len) := by
  obtain ⟨hok, hpages⟩ := history_ok h
  refine ⟨hok.canonical.separated, hpages, hok.counted, fun e he => ?_, fun len hlen => ?_⟩
  · obtain ⟨hpanic, hdone⟩ := insert_spec hok he
    constructor
    · intro hnone
      obtain ⟨p, hp, x, hx, hxp⟩ := Set.not_disjoint_iff.mp (hpanic hnone)
      exact ⟨x, hx, p, hxp, hp⟩
    · rintro ⟨x, hx, p, hxp, hp⟩
      refine Option.eq_none_iff_forall_ne_some.mpr fun c' hc' => ?_
      exact Set.disjoint_left.mp (hdone c' hc').2.1 hp ⟨x, hx, hxp⟩
  · obtain ⟨found, c', hfit⟩ := allocate_returns hok hlen
    refine ⟨found, c', hfit, ?_⟩
    rcases allocateBestFit_spec hok hfit with ⟨rfl, -, hshort⟩ | ⟨x, hx, rfl, -, hle, hmin, -⟩
    · exact .inl ⟨rfl, hshort⟩
    · exact .inr ⟨x, hx, rfl, hle, hmin⟩

/-- Three extents are coalesced into one; two pages are then taken from its head. -/
theorem central_canonical_coalesced : ∃ s, Reach History.step Op.Valid History.start s ∧
    s.inner.byStartPageNumber = [⟨5, 5⟩] ∧
    listPages s.inner.byStartPageNumber = livePages s.events := by
  obtain ⟨s, hexec, hs⟩ : ∃ s, exec History.step History.start
      [.insert ⟨3, 2⟩, .insert ⟨7, 3⟩, .insert ⟨5, 2⟩, .allocate 2] = some s ∧
      s.inner.byStartPageNumber = [⟨5, 5⟩] := ⟨_, rfl, rfl⟩
  have hreach : Reach History.step Op.Valid History.start s := by
    refine .of_exec_forall hexec ?_
    simp [Op.Valid, FreeExtent.Valid, FreeExtent.stop, u64Limit]
  exact ⟨s, hreach, hs, (central_canonical hreach).2.1⟩

end

end Pagebox.Storage.FreePageAllocator.CentralInner
