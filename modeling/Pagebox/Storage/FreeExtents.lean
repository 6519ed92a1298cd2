import Mathlib.Order.Interval.Finset.Nat
import Pagebox.Base.Intervals
import Mathlib.Order.CompletePartialOrder
import Pagebox.Storage.FreePageAllocator

/-!
# Page sets of the allocator's freelists

The pages of an extent and of a list of extents, and what the operations of the
central freelist do to them: inserting adds the pages of the inserted extent and
nothing else, a best-fit allocation removes the pages it returns.  Both keep the
extents in order with gaps between them, so the two neighbours that `insert` looks
at are the only ones that a new extent can overlap or touch.
-/

namespace Pagebox.Storage.FreePageAllocator

open Pagebox.Base Option
open List hiding Disjoint

def extentPages (e : FreeExtent) : Set Nat := { p | e.Contains p }

def listPages (l : List FreeExtent) : Set Nat := { p | ∃ e ∈ l, e.Contains p }

/-- The extents of a queue or of the central map start after page 0, are
non-empty and do not overlap. -/
structure ExtentsWf (l : List FreeExtent) : Prop where
  positive : ∀ e ∈ l, 0 < e.startPageNumber ∧ 0 < e.len
  disjoint : l.Pairwise fun a b => Disjoint (extentPages a) (extentPages b)

theorem mem_extentPages {e : FreeExtent} {p : Nat} :
    p ∈ extentPages e ↔ e.startPageNumber ≤ p ∧ p < e.startPageNumber + e.len := Iff.rfl

theorem start_mem_extentPages {e : FreeExtent} (h : 0 < e.len) :
    e.startPageNumber ∈ extentPages e := by
  rw [mem_extentPages]
  omega

@[simp] theorem listPages_nil : listPages [] = ∅ := by
  simp [listPages]

theorem listPages_cons (e : FreeExtent) (l : List FreeExtent) :
    listPages (e :: l) = extentPages e ∪ listPages l := by
  ext p
  simp [listPages, extentPages]

theorem listPages_append (l l' : List FreeExtent) :
    listPages (l ++ l') = listPages l ∪ listPages l' := by
  ext p
  simp only [listPages, mem_append, Set.mem_ofPred_eq, Set.mem_union]
  constructor
  · rintro ⟨e, h | h, hp⟩
    · exact .inl ⟨e, h, hp⟩
    · exact .inr ⟨e, h, hp⟩
  · rintro (⟨e, h, hp⟩ | ⟨e, h, hp⟩)
    · exact ⟨e, .inl h, hp⟩
    · exact ⟨e, .inr h, hp⟩

theorem extentPages_subset_listPages {e : FreeExtent} {l : List FreeExtent} (h : e ∈ l) :
    extentPages e ⊆ listPages l :=
  fun _ hp => ⟨e, h, hp⟩

namespace ExtentsWf

variable {l : List FreeExtent}

theorem nil : ExtentsWf [] := ⟨by simp, List.Pairwise.nil⟩

theorem tail {e : FreeExtent} (h : ExtentsWf (e :: l)) : ExtentsWf l :=
  ⟨fun x hx => h.positive x (mem_cons_of_mem e hx), (pairwise_cons.mp h.disjoint).2⟩

theorem head_disjoint {e : FreeExtent} (h : ExtentsWf (e :: l)) :
    Disjoint (extentPages e) (listPages l) := by
  rw [Set.disjoint_left]
  rintro p hp ⟨x, hx, hpx⟩
  exact Set.disjoint_left.mp ((pairwise_cons.mp h.disjoint).1 x hx) hp hpx

theorem disjoint_of_ne (h : ExtentsWf l) {a b : FreeExtent} (ha : a ∈ l) (hb : b ∈ l)
    (hab : a ≠ b) : Disjoint (extentPages a) (extentPages b) := by
  exact h.disjoint.forall ha hb hab

theorem eq_of_start (h : ExtentsWf l) {a b : FreeExtent} (ha : a ∈ l) (hb : b ∈ l)
    (hab : a.startPageNumber = b.startPageNumber) : a = b := by
  by_contra hne
  have hdis := h.disjoint_of_ne ha hb hne
  have hmem := start_mem_extentPages (h.positive a ha).2
  refine Set.disjoint_left.mp hdis hmem ?_
  rw [hab]
  exact start_mem_extentPages (h.positive b hb).2

theorem append_singleton (h : ExtentsWf l) {e : FreeExtent}
    (he : 0 < e.startPageNumber ∧ 0 < e.len) (hdis : Disjoint (extentPages e) (listPages l)) :
    ExtentsWf (l ++ [e]) := by
  refine ⟨?_, ?_⟩
  · intro x hx
    rcases mem_append.mp hx with hx | hx
    · exact h.positive x hx
    · rw [mem_singleton.mp hx]
      exact he
  · rw [pairwise_append]
    refine ⟨h.disjoint, pairwise_singleton _ _, ?_⟩
    intro a ha b hb
    rw [mem_singleton.mp hb]
    exact (hdis.mono_right (extentPages_subset_listPages ha)).symm

end ExtentsWf

namespace FreeExtent

def stop (e : FreeExtent) : Nat := e.startPageNumber + e.len

/-- What `FreeExtent::new` asserts, and an end that fits. -/
def Valid (e : FreeExtent) : Prop := 0 < e.startPageNumber ∧ 0 < e.len ∧ e.stop < u64Limit

theorem start_lt_stop {e : FreeExtent} (h : e.Valid) : e.startPageNumber < e.stop :=
  Nat.lt_add_of_pos_right h.2.1

theorem endPageNumber_eq_some {e : FreeExtent} {stop : Nat} :
    e.endPageNumber = some stop ↔ e.stop < u64Limit ∧ e.stop = stop := by
  rw [endPageNumber, Option.ite_none_right_eq_some, Option.some.injEq]
  rfl

theorem endPageNumber_of_valid {e : FreeExtent} (h : e.Valid) : e.endPageNumber = some e.stop :=
  endPageNumber_eq_some.mpr ⟨h.2.2, rfl⟩

end FreeExtent

namespace CentralInner

open FreeExtent

variable {m m' : List FreeExtent} {e g x : FreeExtent}

/-- In order, and no two extents adjacent. -/
structure Canonical (m : List FreeExtent) : Prop where
  valid : ∀ x ∈ m, x.Valid
  separated : Separated startPageNumber stop m

/-- `g` neither overlaps nor touches an extent of the list. -/
def Clear (g : FreeExtent) (m : List FreeExtent) : Prop :=
  ∀ x ∈ m, x.stop < g.startPageNumber ∨ g.stop < x.startPageNumber

namespace Canonical

theorem sublist (h : Canonical m) (hsub : m'.Sublist m) : Canonical m' :=
  ⟨fun x hx => h.valid x (hsub.subset hx), h.separated.sublist hsub⟩

theorem wf (h : Canonical m) : ExtentsWf m := by
  refine ⟨fun x hx => ⟨(h.valid x hx).1, (h.valid x hx).2.1⟩, h.separated.imp fun hab => ?_⟩
  rw [Set.disjoint_left]
  intro p ha hb
  exact absurd (ha.2.trans hab) (not_lt.mpr hb.1)

/-- An extent that is clear of the others takes its place among them. -/
theorem mapInsert (h : Canonical m) (hg : g.Valid) (hclear : Clear g m) :
    Canonical (mapInsert g m) ∧
      listPages (CentralInner.mapInsert g m) = extentPages g ∪ listPages m := by
  have hpos := start_lt_stop hg
  have hsplit : ∀ x ∈ m, x.startPageNumber < x.stop := fun x hx => start_lt_stop (h.valid x hx)
  refine ⟨⟨fun x hx => ?_, pairwise_append.mpr ⟨h.separated.filter _,
    pairwise_cons.mpr ⟨fun x hx => ?_, h.separated.filter _⟩, fun a ha b hb => ?_⟩⟩, ?_⟩
  · simp only [CentralInner.mapInsert, mem_append, mem_cons, mem_filter] at hx
    rcases hx with hx | rfl | hx
    · exact h.valid x hx.1
    · exact hg
    · exact h.valid x hx.1
  · obtain ⟨hx, hlt⟩ := mem_filter.mp hx
    have := of_decide_eq_true hlt
    have := hsplit x hx
    rcases hclear x hx with hc | hc <;> omega
  · obtain ⟨ha, hlt⟩ := mem_filter.mp ha
    have := of_decide_eq_true hlt
    have hlow : a.stop < g.startPageNumber := (hclear a ha).resolve_right (by omega)
    rcases mem_cons.mp hb with rfl | hb
    · exact hlow
    · have := of_decide_eq_true (mem_filter.mp hb).2
      omega
  ext p
  simp only [CentralInner.mapInsert, listPages_append, listPages_cons, Set.mem_union]
  constructor
  · rintro (⟨x, hx, hp⟩ | hp | ⟨x, hx, hp⟩)
    · exact .inr ⟨x, mem_of_mem_filter hx, hp⟩
    · exact .inl hp
    · exact .inr ⟨x, mem_of_mem_filter hx, hp⟩
  rintro (hp | ⟨x, hx, hp⟩)
  · exact .inr (.inl hp)
  · have := hsplit x hx
    rcases hclear x hx with hlt | hlt
    · exact .inl ⟨x, mem_filter.mpr ⟨hx, decide_eq_true (by omega)⟩, hp⟩
    · exact .inr (.inr ⟨x, mem_filter.mpr ⟨hx, decide_eq_true (by omega)⟩, hp⟩)

theorem clear_mapRemove (h : Canonical m) (hx : x ∈ m) :
    Clear x (mapRemove x.startPageNumber m) := by
  intro y hy
  obtain ⟨hy, hne⟩ := mem_filter.mp hy
  refine h.separated.apart hy hx ?_
  rintro rfl
  simp at hne

end Canonical

theorem listPages_mapRemove (h : ExtentsWf m) (he : e ∈ m) :
    listPages (mapRemove e.startPageNumber m) = listPages m \ extentPages e := by
  ext p
  constructor
  · rintro ⟨x, hx, hp⟩
    obtain ⟨hxm, hne⟩ : x ∈ m ∧ x.startPageNumber ≠ e.startPageNumber := by
      simpa [mapRemove] using hx
    have hxe : x ≠ e := fun heq => hne (by rw [heq])
    exact ⟨⟨x, hxm, hp⟩, Set.disjoint_left.mp (h.disjoint_of_ne hxm he hxe) hp⟩
  rintro ⟨⟨x, hxm, hp⟩, hpe⟩
  refine ⟨x, ?_, hp⟩
  have hne : x.startPageNumber ≠ e.startPageNumber := by
    intro heq
    rw [h.eq_of_start hxm he heq] at hp
    exact hpe hp
  simpa [mapRemove] using ⟨hxm, hne⟩

/-- What coalescing with a neighbour leaves: a larger extent and the rest of the map,
which together hold the pages they held before. -/
structure Joined (m : List FreeExtent) (e : FreeExtent) (m' : List FreeExtent) (g : FreeExtent) :
    Prop where
  sub : m'.Sublist m
  valid : g.Valid
  start : g.startPageNumber ≤ e.startPageNumber
  stop : e.stop ≤ g.stop
  kept : ∀ x ∈ m, x ∈ m' ∨ x.stop ≤ e.startPageNumber ∨ e.stop ≤ x.startPageNumber
  pages : extentPages g ∪ listPages m' = extentPages e ∪ listPages m

theorem Joined.refl (he : e.Valid) : Joined m e m e :=
  ⟨.refl m, he, le_rfl, le_rfl, fun _ hx => .inl hx, rfl⟩

theorem joined_of_touch (h : Canonical m) (hx : x ∈ m) (hg : g.Valid)
    (htouch : x.stop = e.startPageNumber ∧ g.startPageNumber = x.startPageNumber ∧ g.stop = e.stop ∨
      e.stop = x.startPageNumber ∧ g.startPageNumber = e.startPageNumber ∧ g.stop = x.stop) :
    Joined m e (mapRemove x.startPageNumber m) g := by
  have hxpos := start_lt_stop (h.valid x hx)
  have hpages : extentPages g = extentPages e ∪ extentPages x := by
    ext p
    simp only [mem_extentPages, Set.mem_union]
    simp only [FreeExtent.stop] at *
    omega
  refine ⟨filter_sublist, hg, by omega, by omega, fun y hy => ?_, ?_⟩
  · by_cases hyx : y.startPageNumber = x.startPageNumber
    · rw [h.wf.eq_of_start hy hx hyx]
      omega
    · exact .inl (mem_filter.mpr ⟨hy, decide_eq_true hyx⟩)
  · rw [hpages, listPages_mapRemove h.wf hx, Set.union_assoc,
      Set.union_sdiff_cancel (extentPages_subset_listPages hx)]

theorem joinPrev_spec (h : Canonical m) (he : e.Valid) :
    (joinPrev m e = none → ∃ x ∈ m, x.Contains e.startPageNumber) ∧
      ∀ m' g, joinPrev m e = some (m', g) → Joined m e m' g ∧ g.stop = e.stop ∧
        ∀ x ∈ m', x.stop < g.startPageNumber ∨ e.startPageNumber < x.startPageNumber := by
  unfold joinPrev
  split
  · rename_i hnone
    refine ⟨nofun, fun m' g heq => ?_⟩
    cases heq
    have hall : ∀ x ∈ m, e.startPageNumber < x.startPageNumber := by
      simpa [getLast?_eq_none_iff, filter_eq_nil_iff] using hnone
    exact ⟨.refl he, rfl, fun x hx => .inr (hall x hx)⟩
  rename_i prev hprev
  obtain ⟨init, hinit⟩ := getLast?_eq_some_iff.mp hprev
  have hmem : prev ∈ m.filter _ := mem_of_getLast? hprev
  obtain ⟨hmem, hle⟩ := mem_filter.mp hmem
  have hpv := h.valid prev hmem
  -- every other extent that starts no later ends before `prev`
  have hothers : ∀ x ∈ m, x = prev ∨ x.stop < prev.startPageNumber ∨
      e.startPageNumber < x.startPageNumber := by
    intro x hx
    by_cases hlow : x.startPageNumber ≤ e.startPageNumber
    · have hsorted := h.separated.filter fun x => decide (x.startPageNumber ≤ e.startPageNumber)
      have hx' : x ∈ init ++ [prev] := hinit ▸ mem_filter.mpr ⟨hx, decide_eq_true hlow⟩
      rw [hinit] at hsorted
      rcases mem_append.mp hx' with hx' | hx'
      · exact .inr (.inl ((pairwise_append.mp hsorted).2.2 x hx' prev (mem_singleton_self prev)))
      · exact .inl (mem_singleton.mp hx')
    · exact .inr (.inr (not_le.mp hlow))
  simp only [endPageNumber_of_valid hpv, Option.bind_eq_bind, Option.bind_some]
  split
  · split
    · rename_i htouch
      refine ⟨nofun, fun m' g heq => ?_⟩
      cases heq
      have hstop : (⟨prev.startPageNumber, e.len + prev.len⟩ : FreeExtent).stop = e.stop := by
        simp only [FreeExtent.stop] at htouch ⊢
        omega
      have hg : (⟨prev.startPageNumber, e.len + prev.len⟩ : FreeExtent).Valid :=
        ⟨hpv.1, Nat.add_pos_left he.2.1 _, hstop.trans_lt he.2.2⟩
      refine ⟨joined_of_touch h hmem hg (.inl ⟨htouch, rfl, hstop⟩), hstop, fun x hx => ?_⟩
      obtain ⟨hx, hne⟩ := mem_filter.mp hx
      refine (hothers x hx).resolve_left ?_
      rintro rfl
      simp at hne
    · refine ⟨nofun, fun m' g heq => ?_⟩
      cases heq
      refine ⟨.refl he, rfl, fun x hx => ?_⟩
      have := start_lt_stop hpv
      rcases hothers x hx with rfl | hx | hx <;> omega
  · rename_i hover
    exact ⟨fun _ => ⟨prev, hmem, of_decide_eq_true hle, not_le.mp hover⟩, nofun⟩

theorem joinNext_spec {start : Nat} (h : Canonical m) (hg : g.Valid)
    (hstart : g.startPageNumber ≤ start)
    (hleft : ∀ x ∈ m, x.stop < g.startPageNumber ∨ start < x.startPageNumber) :
    (joinNext m g g.stop = none → ∃ x ∈ m, start < x.startPageNumber ∧ x.startPageNumber < g.stop) ∧
      ∀ m' g', joinNext m g g.stop = some (m', g') → Joined m g m' g' ∧ Clear g' m' := by
  have hpos := start_lt_stop hg
  unfold joinNext
  split
  · rename_i hnone
    refine ⟨nofun, fun m' g' heq => ?_⟩
    cases heq
    have hall : ∀ x ∈ m, x.startPageNumber < g.startPageNumber := by
      simpa [head?_eq_none_iff, filter_eq_nil_iff] using hnone
    refine ⟨.refl hg, fun x hx => .inl ((hleft x hx).resolve_right ?_)⟩
    have := hall x hx
    omega
  rename_i next hnext
  obtain ⟨rest, hrest⟩ := head?_eq_some_iff.mp hnext
  have hmem : next ∈ m.filter _ := mem_of_head? hnext
  obtain ⟨hmem, hle⟩ := mem_filter.mp hmem
  have hnv := h.valid next hmem
  have hnpos := start_lt_stop hnv
  have hothers : ∀ x ∈ m, x = next ∨ x.stop < g.startPageNumber ∨
      next.stop < x.startPageNumber := by
    intro x hx
    by_cases hhigh : g.startPageNumber ≤ x.startPageNumber
    · have hsorted := h.separated.filter fun x => decide (g.startPageNumber ≤ x.startPageNumber)
      have hx' : x ∈ next :: rest := hrest ▸ mem_filter.mpr ⟨hx, decide_eq_true hhigh⟩
      rw [hrest] at hsorted
      exact (mem_cons.mp hx').imp_right fun hx' => .inr ((pairwise_cons.mp hsorted).1 x hx')
    · exact .inr (.inl ((hleft x hx).resolve_right (by omega)))
  split
  · split
    · rename_i htouch
      simp only [endPageNumber_of_valid hnv, Option.bind_eq_bind, Option.bind_some]
      refine ⟨nofun, fun m' g' heq => ?_⟩
      cases heq
      have hstop : (⟨g.startPageNumber, next.stop - g.startPageNumber⟩ : FreeExtent).stop =
          next.stop := by
        simp only [FreeExtent.stop] at *
        omega
      have hg' : (⟨g.startPageNumber, next.stop - g.startPageNumber⟩ : FreeExtent).Valid :=
        ⟨hg.1, Nat.sub_pos_of_lt (by omega), hstop.trans_lt hnv.2.2⟩
      refine ⟨joined_of_touch h hmem hg' (.inr ⟨htouch, rfl, hstop⟩), fun x hx => ?_⟩
      obtain ⟨hx, hne⟩ := mem_filter.mp hx
      rw [hstop]
      refine (hothers x hx).resolve_left ?_
      rintro rfl
      simp at hne
    · refine ⟨nofun, fun m' g' heq => ?_⟩
      cases heq
      refine ⟨.refl hg, fun x hx => ?_⟩
      rcases hothers x hx with rfl | hx | hx <;> omega
  · rename_i hover
    refine ⟨fun _ => ⟨next, hmem, (hleft next hmem).resolve_left ?_, not_le.mp hover⟩, nofun⟩
    have := of_decide_eq_true hle
    omega

/-- The state of the central freelist between calls: the counter is the total length. -/
structure Ok (c : CentralInner) : Prop where
  canonical : Canonical c.byStartPageNumber
  counted : c.freeBasePages = (c.byStartPageNumber.map len).sum

theorem ok_new : Ok CentralInner.new := ⟨⟨nofun, .nil⟩, rfl⟩

theorem ncard_extentPages (e : FreeExtent) :
    (extentPages e).Finite ∧ (extentPages e).ncard = e.len := by
  have hset : extentPages e = (Finset.Ico e.startPageNumber e.stop : Set Nat) := by
    ext p
    simp [mem_extentPages, FreeExtent.stop]
  rw [hset, Set.ncard_coe_finset, Nat.card_Ico, FreeExtent.stop, Nat.add_sub_cancel_left]
  exact ⟨Finset.finite_toSet _, rfl⟩

theorem ncard_listPages (h : ExtentsWf m) :
    (listPages m).Finite ∧ (listPages m).ncard = (m.map len).sum := by
  induction m with
  | nil => simp
  | cons x m ih =>
    obtain ⟨hfinite, hcard⟩ := ih h.tail
    obtain ⟨hfinite', hcard'⟩ := ncard_extentPages x
    rw [listPages_cons, Set.ncard_union_eq h.head_disjoint hfinite' hfinite, hcard, hcard']
    exact ⟨hfinite'.union hfinite, by simp⟩

/-- `insert` of an extent whose end fits panics exactly when the extent overlaps one of
the freelist; otherwise it adds the pages of the extent. -/
theorem insert_spec {c : CentralInner} (h : Ok c) (he : e.Valid) :
    (c.insert e = none → ¬ Disjoint (extentPages e) (listPages c.byStartPageNumber)) ∧
      ∀ c', c.insert e = some c' → Ok c' ∧
        Disjoint (extentPages e) (listPages c.byStartPageNumber) ∧
        listPages c'.byStartPageNumber = extentPages e ∪ listPages c.byStartPageNumber := by
  have hpos := start_lt_stop he
  have hmeets : ∀ x ∈ c.byStartPageNumber, ∀ p, x.Contains p → e.Contains p →
      ¬ Disjoint (extentPages e) (listPages c.byStartPageNumber) := fun x hx p hp hep hdis =>
    Set.disjoint_left.mp hdis hep ⟨x, hx, hp⟩
  obtain ⟨hpanic₁, hspec₁⟩ := joinPrev_spec h.canonical he
  simp only [CentralInner.insert, endPageNumber_of_valid he, bind_eq_bind, bind_some]
  cases hprev : joinPrev c.byStartPageNumber e with
  | none =>
    obtain ⟨x, hx, hp⟩ := hpanic₁ hprev
    exact ⟨fun _ => hmeets x hx _ hp ⟨le_rfl, hpos⟩, nofun⟩
  | some r =>
    obtain ⟨m₁, g⟩ := r
    obtain ⟨hjoin₁, hstop, hleft⟩ := hspec₁ m₁ g hprev
    obtain ⟨hpanic₂, hspec₂⟩ :=
      joinNext_spec (h.canonical.sublist hjoin₁.sub) hjoin₁.valid hjoin₁.start hleft
    simp only [bind_some, ← hstop]
    cases hnext : joinNext m₁ g g.stop with
    | none =>
      obtain ⟨x, hx, hlow, hhigh⟩ := hpanic₂ hnext
      have hx := hjoin₁.sub.subset hx
      have hin : x.Contains x.startPageNumber := ⟨le_rfl, start_lt_stop (h.canonical.valid x hx)⟩
      exact ⟨fun _ => hmeets x hx _ hin ⟨hlow.le, hhigh.trans_eq hstop⟩, nofun⟩
    | some r =>
      obtain ⟨m₂, g'⟩ := r
      obtain ⟨hjoin₂, hclear⟩ := hspec₂ m₂ g' hnext
      refine ⟨nofun, fun c' hc' => ?_⟩
      cases hc'
      have hcanon₂ := h.canonical.sublist (hjoin₂.sub.trans hjoin₁.sub)
      obtain ⟨hcanon, hpages⟩ := hcanon₂.mapInsert hjoin₂.valid hclear
      have hpages := hpages.trans (hjoin₂.pages.trans hjoin₁.pages)
      have hdis : Disjoint (extentPages e) (listPages c.byStartPageNumber) := by
        rw [Set.disjoint_left]
        rintro p ⟨hlow, hhigh⟩ ⟨x, hx, hlow', hhigh'⟩
        have := hjoin₁.start
        have := hjoin₂.start
        have := hjoin₂.stop
        -- an extent of the old map is in the new one, or was joined
        rcases hjoin₁.kept x hx with hx | hx
        · rcases hjoin₂.kept x hx with hx | hx
          · have := hclear x hx
            simp only [FreeExtent.stop] at *
            omega
          · simp only [FreeExtent.stop] at *
            omega
        · simp only [FreeExtent.stop] at *
          omega
      refine ⟨⟨hcanon, ?_⟩, hdis, hpages⟩
      obtain ⟨hfinite, hcard⟩ := ncard_listPages h.canonical.wf
      obtain ⟨hfinite', hcard'⟩ := ncard_extentPages e
      rw [← (ncard_listPages hcanon.wf).2, hpages, Set.ncard_union_eq hdis hfinite' hfinite, hcard,
        hcard', h.counted, Nat.add_comm]

/-- The first half of the specification for an insert that did not panic. -/
theorem Ok.insert {c c' : CentralInner} (h : Ok c) (hpos : 0 < e.startPageNumber ∧ 0 < e.len)
    (hins : c.insert e = some c') :
    Ok c' ∧ listPages c'.byStartPageNumber = extentPages e ∪ listPages c.byStartPageNumber := by
  have he : e.Valid := by
    obtain ⟨stop, hstop, -⟩ := bind_eq_some_iff.mp hins
    exact ⟨hpos.1, hpos.2, (endPageNumber_eq_some.mp hstop).1⟩
  exact ((insert_spec h he).2 c' hins).imp_right And.right

theorem minByLen_spec (l : List FreeExtent) :
    (minByLen l = none → l = []) ∧
      ∀ x, minByLen l = some x → x ∈ l ∧ ∀ y ∈ l, x.len ≤ y.len := by
  induction l with
  | nil => exact ⟨fun _ => rfl, nofun⟩
  | cons y ys ih =>
    unfold minByLen
    split
    · rename_i hnone
      refine ⟨nofun, fun x hx => ?_⟩
      cases hx
      simp [ih.1 hnone]
    rename_i best hbest
    obtain ⟨hmem, hmin⟩ := ih.2 best hbest
    split
    · rename_i hle
      refine ⟨nofun, fun x hx => ?_⟩
      cases hx
      exact ⟨mem_cons_self, forall_mem_cons.mpr ⟨le_rfl, fun z hz => hle.trans (hmin z hz)⟩⟩
    · rename_i hlt
      refine ⟨nofun, fun x hx => ?_⟩
      cases hx
      exact ⟨mem_cons_of_mem y hmem, forall_mem_cons.mpr ⟨(not_le.mp hlt).le, hmin⟩⟩

end CentralInner

theorem splitHead_spec {e a r : FreeExtent} {len : Nat} (h : e.splitHead len = some (a, r)) :
    a = ⟨e.startPageNumber, len⟩ ∧ r = ⟨e.startPageNumber + len, e.len - len⟩ ∧
      0 < e.startPageNumber ∧ 0 < len ∧ len ≤ e.len := by
  unfold FreeExtent.splitHead FreeExtent.new at h
  split at h
  · rename_i hlen
    split at h
    · rename_i hstart
      cases h
      exact ⟨rfl, rfl, hstart.1, hlen⟩
    · cases h
  · cases h

theorem extentPages_split {e a r : FreeExtent} {len : Nat}
    (h : e.splitHead len = some (a, r)) :
    extentPages e = extentPages a ∪ extentPages r ∧ Disjoint (extentPages a) (extentPages r) := by
  obtain ⟨rfl, rfl, -, -, hle⟩ := splitHead_spec h
  refine ⟨?_, ?_⟩
  · ext p
    simp only [mem_extentPages, Set.mem_union]
    omega
  · rw [Set.disjoint_left]
    intro p ha hr
    simp only [mem_extentPages] at ha hr
    omega

/-- A best-fit allocation takes the head of a shortest extent that is long enough out of
the freelist; a miss leaves the freelist as it is. -/
theorem allocateBestFit_spec {c c' : CentralInner} {len : Nat} {found : Option FreeExtent}
    (h : c.Ok) (hfit : c.allocateBestFit len = some (found, c')) :
    (found = none ∧ c' = c ∧ ∀ x ∈ c.byStartPageNumber, x.len < len) ∨
      ∃ x ∈ c.byStartPageNumber, found = some ⟨x.startPageNumber, len⟩ ∧ 0 < len ∧ len ≤ x.len ∧
        (∀ y ∈ c.byStartPageNumber, len ≤ y.len → x.len ≤ y.len) ∧ c'.Ok ∧
        extentPages ⟨x.startPageNumber, len⟩ ⊆ listPages c.byStartPageNumber ∧
        listPages c'.byStartPageNumber =
          listPages c.byStartPageNumber \ extentPages ⟨x.startPageNumber, len⟩ := by
  unfold CentralInner.allocateBestFit at hfit
  obtain ⟨hmiss, hhit⟩ :=
    CentralInner.minByLen_spec (c.byStartPageNumber.filter fun e => len ≤ e.len)
  split at hfit
  · rename_i hnone
    cases hfit
    refine .inl ⟨rfl, rfl, fun x hx => not_le.mp ?_⟩
    simpa using filter_eq_nil_iff.mp (hmiss hnone) x hx
  rename_i x hx
  obtain ⟨hmem, hmin⟩ := hhit x hx
  obtain ⟨hmem, hlen⟩ := mem_filter.mp hmem
  simp only [bind_eq_bind, bind_eq_some_iff] at hfit
  obtain ⟨⟨a, r⟩, hsplit, hfit⟩ := hfit
  cases hfit
  obtain ⟨hpages, hdis⟩ := extentPages_split hsplit
  obtain ⟨rfl, rfl, hstart, hpos, hle⟩ := splitHead_spec hsplit
  refine .inr ⟨x, hmem, rfl, hpos, hle, fun y hy hy' =>
    hmin y (mem_filter.mpr ⟨hy, decide_eq_true hy'⟩), ?_⟩
  have hxv := h.canonical.valid x hmem
  have hremove := CentralInner.listPages_mapRemove h.canonical.wf hmem
  have hrest := h.canonical.sublist
    (filter_sublist : (CentralInner.mapRemove x.startPageNumber c.byStartPageNumber).Sublist _)
  have hclear := h.canonical.clear_mapRemove hmem
  set r : FreeExtent := ⟨x.startPageNumber + len, x.len - len⟩ with hr
  set m' := if 0 < r.len then
      CentralInner.mapInsert r (CentralInner.mapRemove x.startPageNumber c.byStartPageNumber)
    else CentralInner.mapRemove x.startPageNumber c.byStartPageNumber with hm'
  have hstop : r.stop = x.stop := by
    simp only [hr, FreeExtent.stop]
    omega
  -- the rest of the extent goes back into the map unless it is empty
  have hnew : CentralInner.Canonical m' ∧
      listPages m' = extentPages r ∪ (listPages c.byStartPageNumber \ extentPages x) := by
    rw [hm', ← hremove]
    split
    · rename_i hrest'
      refine hrest.mapInsert ⟨Nat.add_pos_left hxv.1 _, hrest', hstop.trans_lt hxv.2.2⟩ ?_
      intro y hy
      rw [hstop]
      exact (hclear y hy).imp_left fun hlt => hlt.trans_le (Nat.le_add_right ..)
    refine ⟨hrest, ?_⟩
    have hempty : extentPages r = ∅ := by
      ext p
      simp only [mem_extentPages, Set.mem_empty_iff_false, iff_false]
      omega
    rw [hempty, Set.empty_union]
  have hall : listPages m' =
      listPages c.byStartPageNumber \ extentPages ⟨x.startPageNumber, len⟩ := by
    have hsub := extentPages_subset_listPages hmem
    rw [hnew.2, hpages]
    ext p
    have hp := @hsub p
    have hap : p ∈ extentPages ⟨x.startPageNumber, len⟩ → p ∉ extentPages r :=
      fun ha => Set.disjoint_left.mp hdis ha
    simp only [hpages, Set.mem_union, Set.mem_sdiff] at hp ⊢
    tauto
  have hsub : extentPages ⟨x.startPageNumber, len⟩ ⊆ listPages c.byStartPageNumber :=
    (hpages ▸ Set.subset_union_left).trans (extentPages_subset_listPages hmem)
  refine ⟨⟨hnew.1, ?_⟩, hsub, hall⟩
  obtain ⟨hfinite, hcard⟩ := CentralInner.ncard_extentPages ⟨x.startPageNumber, len⟩
  rw [← (CentralInner.ncard_listPages hnew.1.wf).2, hall, Set.ncard_sdiff hsub hfinite, hcard,
    (CentralInner.ncard_listPages h.canonical.wf).2, h.counted]

end Pagebox.Storage.FreePageAllocator
