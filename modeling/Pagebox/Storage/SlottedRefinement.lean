import Mathlib.Data.List.Sort
import Pagebox.Base.Runs
import Pagebox.Storage.SlottedSearch

/-!
# Slotted pages refine sorted sequences

Pages that are edited and copied into each other, side by side with the sequences
they stand for.  Every page reads back its sequence in key order, keeps its
counters exact and never touches its suffix, and no computation wraps.
-/

namespace Pagebox.Storage

open Pagebox.Base SlottedPage Function List

variable {ps : PageSize}

structure PageContents where
  entries : List Entry
  suffix : Bytes

/-- An operation on one page of a family; `copy` reads another page, and
`writeSuffix` is the owner of the page writing its reserved bytes. -/
inductive PageOp
  | insert (page : Nat) (e : Entry)
  | remove (page slot : Nat)
  | update (page slot : Nat) (value : Bytes)
  | compactify (page : Nat)
  | truncate (page newCount : Nat)
  | copy (source page srcSlot count : Nat)
  | writeSuffix (page offset : Nat) (bytes : Bytes)

namespace PageOp

def page : PageOp → Nat
  | insert page _ | remove page _ | update page _ _ | compactify page | truncate page _
  | copy _ page _ _ | writeSuffix page _ _ => page

def perform (pages : Nat → SlottedPage ps) : PageOp → Except Fault (SlottedPage ps)
  | insert page e => (pages page).insert ((pages page).lowerBound e.key).1 e
  | remove page slot => (pages page).remove slot
  | update page slot value => (·.1) <$> (pages page).updateValue slot value
  | compactify page => (pages page).compactify
  | truncate page newCount => (pages page).truncate newCount
  | copy source page srcSlot count => (pages source).copyKeyValueRange (pages page) srcSlot count
  | writeSuffix page offset bytes => (pages page).put offset bytes

def expected (ps : PageSize) (model : Nat → PageContents) : PageOp → PageContents
  | insert page e =>
    { model page with entries := (model page).entries.orderedInsert (fun a b => a.key ≤ b.key) e }
  | remove page slot => { model page with entries := (model page).entries.eraseIdx slot }
  | update page slot value =>
    { model page with entries := (model page).entries.modify slot fun e => ⟨e.key, value⟩ }
  | compactify page => model page
  | truncate page newCount => { model page with entries := (model page).entries.take newCount }
  | copy source page srcSlot count =>
    { model page with
      entries := (model page).entries ++ ((model source).entries.drop srcSlot).take count }
  | writeSuffix page offset bytes =>
    { model page with
      suffix := writeAt (model page).suffix (offset - (ps.bytes - (model page).suffix.length))
        bytes }

def Callable (suffix : Nat → Nat) (pages : Nat → SlottedPage ps) : PageOp → Prop
  | insert page e =>
    (∀ x ∈ (pages page).entries, x.key ≠ e.key) ∧
      (pages page).canInsert e.key.length e.value.length = true
  | remove page slot => slot < (pages page).numSlots
  | update page slot value =>
    slot < (pages page).numSlots ∧ value.length = ((pages page).slot slot).valLen
  | compactify _ => True
  | truncate page newCount => newCount ≤ (pages page).numSlots
  | copy source page srcSlot count =>
    source ≠ page ∧ srcSlot + count ≤ (pages source).numSlots
  | writeSuffix page offset bytes =>
    slottedHeaderSize ≤ offset ∧ ps.bytes - suffix page ≤ offset ∧ offset + bytes.length ≤ ps.bytes

def InOrder (pages : Nat → SlottedPage ps) : PageOp → Prop
  | copy source page srcSlot count =>
    ∀ x ∈ (pages page).entries, ∀ y ∈ ((pages source).entries.drop srcSlot).take count,
      x.key < y.key
  | _ => True

/-- There is room for what a copy appends. -/
def Fits (suffix : Nat → Nat) (pages : Nat → SlottedPage ps) : PageOp → Prop
  | copy source page srcSlot count =>
    count = 0 ∨ pageLen (suffix page) ((pages page).entries ++
      ((pages source).entries.drop srcSlot).take count) ≤ ps.bytes
  | _ => True

end PageOp

structure PageRun (ps : PageSize) where
  pages : Nat → SlottedPage ps
  model : Nat → PageContents

namespace PageRun

def start (suffix : Nat → Nat) (pages : Nat → SlottedPage ps) : PageRun ps where
  pages := pages
  model i := ⟨[], (pages i).data.slice (ps.bytes - suffix i) ps.bytes⟩

def step (s : PageRun ps) (op : PageOp) : Option (PageRun ps) :=
  match op.perform s.pages with
  | .error _ => none
  | .ok p => some {
      pages := update s.pages op.page p
      model := update s.model op.page (op.expected ps s.model) }

end PageRun

structure Refines (suffix : Nat) (m : PageContents) (p : SlottedPage ps) : Prop where
  entries : p.entries = m.entries
  sorted : Sorted m.entries
  used : p.spaceUsed = suffix + (m.entries.map Entry.len).sum
  suffixBytes : p.data.slice (ps.bytes - suffix) ps.bytes = m.suffix
  inside : ∀ i < p.numSlots, p.slotArrayEnd ≤ (p.slot i).offset ∧
    (p.slot i).offset + ((p.slot i).keyLen + (p.slot i).valLen) + suffix ≤ ps.bytes
  apart : ∀ i j, i < j → j < p.numSlots →
    (p.slot i).offset + ((p.slot i).keyLen + (p.slot i).valLen) ≤ (p.slot j).offset ∨
      (p.slot j).offset + ((p.slot j).keyLen + (p.slot j).valLen) ≤ (p.slot i).offset

theorem orderedInsert_eq_insertIdx {e : Entry} {es : List Entry} {pos : Nat}
    (hpos : pos ≤ es.length) (hbelow : ∀ i (hi : i < es.length), i < pos → es[i].key < e.key)
    (habove : ∀ i (hi : i < es.length), pos ≤ i → e.key < es[i].key) :
    es.orderedInsert (fun a b => a.key ≤ b.key) e = es.insertIdx pos e := by
  induction es generalizing pos with
  | nil =>
    cases Nat.le_zero.mp hpos
    rfl
  | cons x es ih =>
    cases pos with
    | zero =>
      have hx : e.key < x.key := habove 0 (by simp) (Nat.le_refl _)
      rw [orderedInsert_cons, if_pos hx.le, insertIdx_zero]
    | succ pos =>
      have hx : x.key < e.key := hbelow 0 (by simp) (Nat.succ_pos _)
      rw [orderedInsert_cons, if_neg (not_le.mpr hx), insertIdx_succ_cons]
      rw [ih (by simpa using hpos)]
      · intro i hi hlt
        exact hbelow (i + 1) (by simpa using hi) (by omega)
      · intro i hi hle
        exact habove (i + 1) (by simpa using hi) (by omega)

theorem sorted_orderedInsert {e : Entry} {es : List Entry} (hsorted : Sorted es)
    (habsent : ∀ x ∈ es, x.key ≠ e.key) :
    Sorted (es.orderedInsert (fun a b => a.key ≤ b.key) e) := by
  induction es with
  | nil => exact pairwise_singleton _ _
  | cons x es ih =>
    obtain ⟨hx, hes⟩ := pairwise_cons.mp hsorted
    have hne := habsent x mem_cons_self
    rw [orderedInsert_cons]
    split
    · rename_i hle
      have hlt : e.key < x.key := lt_of_le_of_ne hle (Ne.symm hne)
      refine pairwise_cons.mpr ⟨fun y hy => ?_, hsorted⟩
      rcases mem_cons.mp hy with rfl | hy
      · exact hlt
      · exact hlt.trans (hx y hy)
    rename_i hnle
    refine pairwise_cons.mpr
      ⟨fun y hy => ?_, ih hes fun y hy => habsent y (mem_cons_of_mem x hy)⟩
    rcases (mem_orderedInsert _).mp hy with rfl | hy
    · exact not_le.mp hnle
    · exact hx y hy

theorem map_key_modify (es : List Entry) (slot : Nat) (value : Bytes) :
    (es.modify slot fun e => ⟨e.key, value⟩).map Entry.key = es.map Entry.key := by
  apply List.ext_getElem?
  intro i
  rw [List.getElem?_map, List.getElem?_map, List.getElem?_modify]
  cases es[i]? with
  | none => rfl
  | some e =>
    by_cases h : slot = i <;> simp [h]

theorem sorted_modify {es : List Entry} (hsorted : Sorted es) (slot : Nat) (value : Bytes) :
    Sorted (es.modify slot fun e => ⟨e.key, value⟩) := by
  have hkeys : ((es.modify slot fun e => ⟨e.key, value⟩).map Entry.key).Pairwise (· < ·) := by
    rw [map_key_modify]
    exact pairwise_map.mpr hsorted
  exact pairwise_map.mp hkeys

/-- The place that `lower_bound` gives for an absent key keeps the order. -/
theorem orderedInsert_lowerBound {p : SlottedPage ps} {suffix : Nat} {es : List Placed}
    (h : Layout suffix es p) (hsorted : Sorted (entriesOf es)) {e : Entry}
    (habsent : ∀ x ∈ entriesOf es, x.key ≠ e.key) :
    (p.lowerBound e.key).1 ≤ es.length ∧ (entriesOf es).orderedInsert (fun a b => a.key ≤ b.key) e =
        (entriesOf es).insertIdx (p.lowerBound e.key).1 e := by
  have hbound := lowerBound_spec h hsorted e.key
  have hexact : (p.lowerBound e.key).2 = false := by
    by_contra hfound
    obtain ⟨hlt, heq⟩ := hbound.found (by simpa using hfound)
    rw [← length_entriesOf] at hlt
    rw [keyOrder_of_lt hlt, cmpOf_eq_eq] at heq
    exact habsent _ (getElem_mem hlt) heq
  refine ⟨hbound.le, orderedInsert_eq_insertIdx (by rw [length_entriesOf]; exact hbound.le) ?_ ?_⟩
  · intro i hi hlt
    have := hbound.below i hlt
    rwa [keyOrder_of_lt hi, cmpOf_eq_lt] at this
  · intro i hi hle
    have := hbound.above hexact i hle (by rwa [length_entriesOf] at hi)
    rwa [keyOrder_of_lt hi, cmpOf_eq_gt] at this

/-! ## What holds of every page -/

/-- A page whose suffix leaves no room beside the header; nothing ever fits. -/
structure Stuck (suffix : Nat) (p : SlottedPage ps) : Prop where
  full : ps.bytes < slottedHeaderSize + suffix
  le : suffix ≤ ps.bytes
  count : p.numSlots = 0
  used : p.spaceUsed = suffix
  offset : p.dataOffset = ps.bytes - suffix
  flags : p.flags = 0

structure PageInv (suffix : Nat) (m : PageContents) (p : SlottedPage ps) : Prop where
  layout : (∃ es, Layout suffix es p ∧ entriesOf es = m.entries) ∨ (Stuck suffix p ∧ m.entries = [])
  sorted : Sorted m.entries
  suffixBytes : p.data.slice (ps.bytes - suffix) ps.bytes = m.suffix

section Page

variable {suffix : Nat} {m : PageContents} {p q : SlottedPage ps}

namespace PageInv

theorem entries_eq (h : PageInv suffix m p) : p.entries = m.entries := by
  rcases h.layout with ⟨es, hlayout, hentries⟩ | ⟨hstuck, hentries⟩
  · rw [Storage.entries_eq hlayout, hentries]
  · rw [SlottedPage.entries, hstuck.count, hentries]
    rfl

theorem count (h : PageInv suffix m p) : p.numSlots = m.entries.length := by
  rw [← h.entries_eq, SlottedPage.entries, length_map, length_range]

theorem refines (h : PageInv suffix m p) : Refines suffix m p := by
  refine ⟨h.entries_eq, h.sorted, ?_, h.suffixBytes, ?_, ?_⟩
  · rcases h.layout with ⟨es, hlayout, hentries⟩ | ⟨hstuck, hentries⟩
    · rw [hlayout.used, ← hentries, liveLen, entriesOf, map_map]
      rfl
    · rw [hstuck.used, hentries]
      rfl
  · intro i hi
    rcases h.layout with ⟨es, hlayout, -⟩ | ⟨hstuck, -⟩
    · have hlt : i < es.length := hlayout.count ▸ hi
      have hinside := hlayout.inside _ (getElem_mem hlt)
      have hgap := hlayout.gap
      rw [hlayout.slots i _ (List.getElem?_eq_getElem hlt), hlayout.slotArrayEnd_eq]
      exact ⟨hgap.trans hinside.1, hinside.2⟩
    · rw [hstuck.count] at hi
      exact absurd hi (Nat.not_lt_zero i)
  intro i j hij hj
  rcases h.layout with ⟨es, hlayout, -⟩ | ⟨hstuck, -⟩
  · have hjlt : j < es.length := hlayout.count ▸ hj
    have hilt : i < es.length := hij.trans hjlt
    rw [hlayout.slots i _ (List.getElem?_eq_getElem hilt),
      hlayout.slots j _ (List.getElem?_eq_getElem hjlt)]
    exact pairwise_iff_getElem.mp hlayout.apart i j hilt hjlt hij
  · rw [hstuck.count] at hj
    exact absurd hj (Nat.not_lt_zero j)

theorem edit (h : PageInv suffix m p) {es : List Placed} {new : List Entry}
    (hlayout : Layout suffix es q) (hentries : entriesOf es = new) (hsorted : Sorted new)
    (hsame : SameSuffix suffix q p) : PageInv suffix { m with entries := new } q :=
  ⟨.inl ⟨es, hlayout, hentries⟩, hsorted, Eq.trans hsame h.suffixBytes⟩

theorem no_slots (hstuck : Stuck suffix p) {i : Nat} (hi : i < p.numSlots) : False := by
  rw [hstuck.count] at hi
  exact Nat.not_lt_zero i hi

theorem canInsert_stuck (hstuck : Stuck suffix p) (keyLen valLen : Nat) :
    p.canInsert keyLen valLen = false := by
  have hfull := hstuck.full
  have harray : p.slotArrayEnd = slottedHeaderSize := by rw [slotArrayEnd, hstuck.count]; rfl
  have hsize : slotSize = 12 := rfl
  simp only [canInsert, freeSpace, freeSpaceAfterCompaction, harray, hstuck.used, hstuck.offset,
    decide_eq_false_iff_not]
  omega

/-! ## What each operation does -/

theorem insert_ok (h : PageInv suffix m p) {e : Entry} (habsent : ∀ x ∈ p.entries, x.key ≠ e.key)
    (hcan : p.canInsert e.key.length e.value.length = true) :
    ∃ q, p.insert (p.lowerBound e.key).1 e = .ok q ∧
      PageInv suffix { m with entries := m.entries.orderedInsert (fun a b => a.key ≤ b.key) e }
        q := by
  rw [h.entries_eq] at habsent
  rcases h.layout with ⟨es, hlayout, hentries⟩ | ⟨hstuck, -⟩
  · have hsorted := h.sorted
    rw [← hentries] at habsent hsorted
    obtain ⟨hle, hinsert⟩ := orderedInsert_lowerBound hlayout hsorted habsent
    obtain ⟨q, es', hq, hlayout', hentries', hsame⟩ := insert_spec hlayout hle hcan
    refine ⟨q, hq, h.edit hlayout' ?_ ?_ hsame⟩
    · rw [hentries', ← hinsert, hentries]
    · rw [← hentries]
      exact sorted_orderedInsert hsorted habsent
  · rw [canInsert_stuck hstuck] at hcan
    cases hcan

theorem remove_ok (h : PageInv suffix m p) {slot : Nat} (hslot : slot < p.numSlots) :
    ∃ q, p.remove slot = .ok q ∧
      PageInv suffix { m with entries := m.entries.eraseIdx slot } q := by
  rcases h.layout with ⟨es, hlayout, hentries⟩ | ⟨hstuck, -⟩
  · obtain ⟨q, es', hq, hlayout', hentries', hsame⟩ :=
      remove_spec hlayout (hlayout.count ▸ hslot)
    exact ⟨q, hq, h.edit hlayout' (by rw [hentries', hentries])
      (h.sorted.sublist (eraseIdx_sublist _ _)) hsame⟩
  · exact (no_slots hstuck hslot).elim

theorem update_ok (h : PageInv suffix m p) {slot : Nat} {value : Bytes} (hslot : slot < p.numSlots)
    (hlen : value.length = (p.slot slot).valLen) :
    ∃ q, p.updateValue slot value = .ok (q, true) ∧
      PageInv suffix { m with entries := m.entries.modify slot fun e => ⟨e.key, value⟩ } q := by
  rcases h.layout with ⟨es, hlayout, hentries⟩ | ⟨hstuck, -⟩
  · have hlt : slot < es.length := hlayout.count ▸ hslot
    rw [hlayout.slots slot _ (List.getElem?_eq_getElem hlt)] at hlen
    obtain ⟨q, es', hq, hlayout', hentries', hsame⟩ := updateValue_spec hlayout hlt hlen
    refine ⟨q, hq, h.edit hlayout' ?_ (sorted_modify h.sorted slot value) hsame⟩
    rw [hentries', ← hentries, modify_eq_set_getElem?, entriesOf, List.getElem?_map,
      List.getElem?_eq_getElem hlt]
    rfl
  · exact (no_slots hstuck hslot).elim

theorem truncate_ok (h : PageInv suffix m p) {n : Nat} (hn : n ≤ p.numSlots) :
    ∃ q, p.truncate n = .ok q ∧ PageInv suffix { m with entries := m.entries.take n } q := by
  rcases h.layout with ⟨es, hlayout, hentries⟩ | ⟨hstuck, hentries⟩
  · obtain ⟨q, es', hq, hlayout', hentries', hsame⟩ := truncate_spec hlayout (hlayout.count ▸ hn)
    exact ⟨q, hq, h.edit hlayout' (by rw [hentries', hentries])
      (h.sorted.sublist (take_sublist _ _)) hsame⟩
  have hzero : n = p.numSlots := by
    have := hstuck.count
    omega
  refine ⟨p, ?_, ⟨.inr ⟨hstuck, by rw [hentries, take_nil]⟩, ?_, h.suffixBytes⟩⟩
  · have hassert : Fault.assert (n ≤ p.numSlots) = .ok () := if_pos (decide_eq_true hn)
    simp only [truncate, hassert, Fault.ok_bind, if_pos hzero]
    rfl
  · exact h.sorted.sublist (take_sublist _ _)

theorem compactify_stuck (hstuck : Stuck suffix p) : p.compactify = .ok p := by
  have hle := hstuck.le
  have hoffset : p.setDataOffset (ps.bytes - suffix) = p := by
    rw [← hstuck.offset]
    exact congrArg SlottedPage.mk (Page.writeNat_readNat p.data (writeNat_fits (by decide)))
  have hflags : p.clearGarbage = p := by
    rw [clearGarbage, hstuck.flags, Nat.zero_and, ← hstuck.flags]
    exact congrArg SlottedPage.mk (Page.writeNat_readNat p.data (writeNat_fits (by decide)))
  simp only [compactify, compactifyWith, if_pos hstuck.count, hstuck.used, Fault.sub_of_le hle,
    Fault.ok_bind, hoffset, hflags]
  rfl

theorem compactify_ok (h : PageInv suffix m p) :
    ∃ q, p.compactify = .ok q ∧ PageInv suffix m q := by
  rcases h.layout with ⟨es, hlayout, hentries⟩ | ⟨hstuck, -⟩
  · obtain ⟨q, es', hq, hlayout', hentries', hsame, -⟩ := compactify_spec hlayout
    exact ⟨q, hq, h.edit hlayout' (Eq.trans hentries' hentries) h.sorted hsame⟩
  · exact ⟨p, compactify_stuck hstuck, h⟩

theorem copy_ok {source : SlottedPage ps} {suffix' : Nat} {m' : PageContents}
    (hsource : PageInv suffix' m' source) (h : PageInv suffix m p) {k n : Nat}
    (hk : k + n ≤ source.numSlots)
    (hsorted : Sorted (m.entries ++ (m'.entries.drop k).take n))
    (hfits : n = 0 ∨ pageLen suffix (m.entries ++ (m'.entries.drop k).take n) ≤ ps.bytes) :
    ∃ q, source.copyKeyValueRange p k n = .ok q ∧
      PageInv suffix { m with entries := m.entries ++ (m'.entries.drop k).take n } q := by
  have hnone : n = 0 → ∃ q, source.copyKeyValueRange p k n = .ok q ∧
      PageInv suffix { m with entries := m.entries ++ (m'.entries.drop k).take n } q := by
    rintro rfl
    refine ⟨p, rfl, ?_⟩
    rw [take_zero, append_nil]
    exact h
  rcases hfits with hzero | hfits
  · exact hnone hzero
  rcases hsource.layout with ⟨fs, hfs, hfentries⟩ | ⟨hstuck, -⟩
  · rcases h.layout with ⟨es, hlayout, hentries⟩ | ⟨hstuck, -⟩
    · have hspec := copySlots_spec hfs hlayout (hfs.count ▸ hk)
      rw [← hentries, ← hfentries] at hsorted hfits ⊢
      rw [if_pos hfits] at hspec
      obtain ⟨q, es', hq, hlayout', hentries', hsame⟩ := hspec
      exact ⟨q, hq, h.edit hlayout' hentries' hsorted hsame⟩
    · have hfull := hstuck.full
      rw [pageLen] at hfits
      omega
  · rw [hstuck.count] at hk
    exact hnone (by omega)

theorem copy_panics {source : SlottedPage ps} {suffix' : Nat} {m' : PageContents}
    (hsource : PageInv suffix' m' source) (h : PageInv suffix m p) {k n : Nat}
    (hk : k + n ≤ source.numSlots) (hzero : n ≠ 0)
    (hfull : ¬pageLen suffix (m.entries ++ (m'.entries.drop k).take n) ≤ ps.bytes) :
    source.copyKeyValueRange p k n = .error .panic := by
  obtain ⟨n, rfl⟩ := Nat.exists_eq_succ_of_ne_zero hzero
  rcases hsource.layout with ⟨fs, hfs, hfentries⟩ | ⟨hstuck, -⟩
  · rcases h.layout with ⟨es, hlayout, hentries⟩ | ⟨hstuck, -⟩
    · have hspec := copySlots_spec hfs hlayout (hfs.count ▸ hk)
      rwa [hentries, hfentries, if_neg hfull] at hspec
    · rw [copyKeyValueRange, range'_succ, copySlots, insert_panic _ (canInsert_stuck hstuck _ _)]
      rfl
  · exact (no_slots hstuck (i := k) (by omega)).elim

theorem writeSuffix_ok (h : PageInv suffix m p) {offset : Nat} {bytes : Bytes}
    (hheader : slottedHeaderSize ≤ offset) (hstart : ps.bytes - suffix ≤ offset)
    (hfit : offset + bytes.length ≤ ps.bytes) :
    ∃ q, p.put offset bytes = .ok q ∧ PageInv suffix
        { m with suffix := writeAt m.suffix (offset - (ps.bytes - m.suffix.length)) bytes } q := by
  have hsuffix : suffix ≤ ps.bytes := by
    rcases h.layout with ⟨es, hlayout, -⟩ | ⟨hstuck, -⟩
    · have := hlayout.room
      omega
    · exact hstuck.le
  have hlength : m.suffix.length = suffix := by
    rw [← h.suffixBytes, Page.length_slice le_rfl]
    omega
  refine ⟨⟨p.data.write offset bytes⟩, put_of_le hfit, ?_, h.sorted, ?_⟩
  · rcases h.layout with ⟨es, hlayout, hentries⟩ | ⟨hstuck, hentries⟩
    · refine .inl ⟨es, hlayout.congr (sameHeader_write hheader) ?_ ?_, hentries⟩
      · intro i hi
        have hbelow : slotPos i + slotSize ≤ slotPos es.length := slotPos_lt hi
        have hgap := hlayout.gap
        have hroom := hlayout.room
        exact slot_write_of_disjoint (.inl (by omega))
      · intro e he
        have hinside := (hlayout.inside e he).2
        exact Page.slice_write_of_disjoint p.data (.inl (by omega))
    have hsame : SameHeader (⟨p.data.write offset bytes⟩ : SlottedPage ps) p :=
      sameHeader_write hheader
    have hflags : (⟨p.data.write offset bytes⟩ : SlottedPage ps).flags = p.flags :=
      Page.readNat_write_of_disjoint p.data (.inl (by unfold slottedHeaderSize at hheader; omega))
    exact .inr ⟨⟨hstuck.full, hstuck.le, by rw [hsame.numSlots, hstuck.count],
      by rw [hsame.spaceUsed, hstuck.used], by rw [hsame.dataOffset, hstuck.offset],
      by rw [hflags, hstuck.flags]⟩, hentries⟩
  · rw [hlength, ← h.suffixBytes]
    exact Page.slice_write_within p.data hstart hfit le_rfl

end PageInv

end Page

theorem readNat_zero (ps : PageSize) (offset width : Nat) :
    (Page.zero ps).readNat offset width = 0 := by
  rw [Page.readNat, Page.slice, Page.zero, drop_replicate, take_replicate, leNat_replicate_zero]

theorem dataOffset_init : (init ps).dataOffset = ps.bytes := by
  have hle := PageSize.bytes_le ps
  exact dataOffset_setDataOffset (by omega)

theorem reserveSuffix_init (suffix : Nat) : (init ps).reserveSuffix suffix =
    if suffix ≤ ps.bytes then
      .ok (((init ps).setDataOffset (ps.bytes - suffix)).setSpaceUsed suffix)
    else .error .overflow := by
  have hle := PageSize.bytes_le ps
  have hused : (init ps).spaceUsed = 0 := spaceUsed_setDataOffset.trans (readNat_zero ps 12 4)
  split
  · rename_i hfits
    simp only [reserveSuffix, Fault.fit_of_lt 32 suffix (by omega), Fault.ok_bind, dataOffset_init,
      Fault.sub_of_le hfits, hused, Nat.zero_add]
    rfl
  have hsub : Fault.sub (init ps).dataOffset suffix = .error .overflow :=
    if_neg (by rwa [dataOffset_init])
  by_cases hfit : suffix < 2 ^ 32
  · simp only [reserveSuffix, Fault.fit_of_lt 32 suffix hfit, Fault.ok_bind, hsub]
    rfl
  · have hfail : Fault.fit 32 suffix = .error .overflow := if_neg hfit
    simp only [reserveSuffix, hfail]
    rfl

theorem pageInv_init {suffix : Nat} (hpos : 1 ≤ suffix) {p : SlottedPage ps}
    (h : (init ps).reserveSuffix suffix = .ok p) :
    PageInv suffix ⟨[], p.data.slice (ps.bytes - suffix) ps.bytes⟩ p := by
  have hle := PageSize.bytes_le ps
  have hcount : (init ps).numSlots = 0 := numSlots_setDataOffset.trans (readNat_zero ps 16 2)
  rw [reserveSuffix_init] at h
  split at h
  · rename_i hfits
    cases h
    generalize hp : ((init ps).setDataOffset (ps.bytes - suffix)).setSpaceUsed suffix = p
    have hoffset : p.dataOffset = ps.bytes - suffix := by
      rw [← hp, dataOffset_setSpaceUsed, dataOffset_setDataOffset (by omega)]
    have hused : p.spaceUsed = suffix := by rw [← hp, spaceUsed_setSpaceUsed (by omega)]
    have hslots : p.numSlots = 0 := by
      rw [← hp, numSlots_setSpaceUsed, numSlots_setDataOffset, hcount]
    refine ⟨?_, List.Pairwise.nil, rfl⟩
    by_cases hroom : slottedHeaderSize + suffix ≤ ps.bytes
    · refine .inl ⟨[], ⟨hpos, hslots, ?_, ?_, hused, nofun, nofun, nofun, .nil⟩, rfl⟩
      · rw [hoffset, slotPos_eq]
        unfold slottedHeaderSize at hroom
        simp only [length_nil]
        omega
      · simp only [liveLen, map_nil, sum_nil]
        omega
    have hflags : p.flags = 0 := by
      rw [← hp]
      have h2 : ((init ps).setDataOffset (ps.bytes - suffix)).flags = (init ps).flags :=
        Page.readNat_writeNat_of_disjoint _ (.inr (by decide))
      have h3 : (init ps).flags = 0 :=
        (Page.readNat_writeNat_of_disjoint _ (.inr (by decide))).trans (readNat_zero ps 18 2)
      exact ((Page.readNat_writeNat_of_disjoint _ (.inr (by decide))).trans h2).trans h3
    exact .inr ⟨⟨by omega, hfits, hslots, hused, hoffset, hflags⟩, rfl⟩
  · cases h

def PagesInv (suffix : Nat → Nat) (s : PageRun ps) : Prop :=
  ∀ i, PageInv (suffix i) (s.model i) (s.pages i)

section

variable {suffix : Nat → Nat} {s s' : PageRun ps}

/-- An operation that its caller may perform succeeds and does what is expected of
it, unless it is a copy that does not fit: that panics. -/
theorem perform_spec (h : PagesInv suffix s) {op : PageOp} (hop : op.Callable suffix s.pages)
    (hkeys : op.InOrder s.pages) :
    (op.Fits suffix s.pages →
      ∃ p, op.perform s.pages = .ok p ∧ PageInv (suffix op.page) (op.expected ps s.model) p) ∧
    (¬op.Fits suffix s.pages → op.perform s.pages = .error .panic) := by
  cases op with
  | insert page e => exact ⟨fun _ => (h page).insert_ok hop.1 hop.2, fun hno => absurd trivial hno⟩
  | remove page slot => exact ⟨fun _ => (h page).remove_ok hop, fun hno => absurd trivial hno⟩
  | update page slot value =>
    obtain ⟨q, hq, hinv⟩ := (h page).update_ok hop.1 hop.2
    refine ⟨fun _ => ⟨q, ?_, hinv⟩, fun hno => absurd trivial hno⟩
    rw [PageOp.perform, hq]
    rfl
  | compactify page => exact ⟨fun _ => (h page).compactify_ok, fun hno => absurd trivial hno⟩
  | truncate page newCount =>
    exact ⟨fun _ => (h page).truncate_ok hop, fun hno => absurd trivial hno⟩
  | copy source page srcSlot count =>
    obtain ⟨-, hrange⟩ := hop
    rw [PageOp.InOrder, (h page).entries_eq, (h source).entries_eq] at hkeys
    rw [PageOp.Fits, (h page).entries_eq, (h source).entries_eq]
    have hsorted : Sorted ((s.model page).entries ++
        ((s.model source).entries.drop srcSlot).take count) :=
      pairwise_append.mpr ⟨(h page).sorted,
        (h source).sorted.sublist ((take_sublist _ _).trans (drop_sublist _ _)), hkeys⟩
    refine ⟨fun hfits => (h source).copy_ok (h page) hrange hsorted hfits, fun hno => ?_⟩
    rw [not_or] at hno
    exact (h source).copy_panics (h page) hrange hno.1 hno.2
  | writeSuffix page offset bytes =>
    exact ⟨fun _ => (h page).writeSuffix_ok hop.1 hop.2.1 hop.2.2, fun hno => absurd trivial hno⟩

theorem pagesInv_step (h : PagesInv suffix s) {op : PageOp} (hop : op.Callable suffix s.pages)
    (hkeys : op.InOrder s.pages) (hstep : s.step op = some s') : PagesInv suffix s' := by
  obtain ⟨hfit, hpanic⟩ := perform_spec h hop hkeys
  by_cases hfits : op.Fits suffix s.pages
  · obtain ⟨p, hp, hinv⟩ := hfit hfits
    rw [PageRun.step, hp] at hstep
    cases hstep
    intro i
    by_cases hi : i = op.page
    · subst hi
      simpa using hinv
    · simpa [hi] using h i
  · rw [PageRun.step, hpanic hfits] at hstep
    cases hstep

theorem pagesInv_reach {pages : Nat → SlottedPage ps} (hpos : ∀ i, 1 ≤ suffix i)
    (hpages : ∀ i, (init ps).reserveSuffix (suffix i) = .ok (pages i))
    (h : Reach PageRun.step (fun s op => op.Callable suffix s.pages ∧ op.InOrder s.pages)
      (.start suffix pages) s) : PagesInv suffix s :=
  h.invariant (fun i => pageInv_init (hpos i) (hpages i)) fun _ _ _ hinv hok hstep =>
    pagesInv_step hinv hok.1 hok.2 hstep

theorem PageInv.insert_cases {suffix : Nat} {m : PageContents} {p : SlottedPage ps}
    (h : PageInv suffix m p) {slotId : Nat} (hslot : slotId ≤ p.numSlots) (e : Entry) :
    (∃ q, p.insert slotId e = .ok q ∧ p.canInsert e.key.length e.value.length = true) ∨
      (p.insert slotId e = .error .panic ∧ p.canInsert e.key.length e.value.length = false) := by
  cases hcan : p.canInsert e.key.length e.value.length with
  | false => exact .inr ⟨insert_panic _ hcan, rfl⟩
  | true =>
    rcases h.layout with ⟨es, hlayout, -⟩ | ⟨hstuck, -⟩
    · obtain ⟨q, -, hq, -⟩ := insert_spec hlayout (hlayout.count ▸ hslot) hcan
      exact .inl ⟨q, hq, rfl⟩
    · rw [canInsert_stuck hstuck] at hcan
      cases hcan

/-- Along every run whose copies append keys in order, every page stands for its
sequence; no operation wraps, only a copy panics, exactly when its entries do not fit,
and `insert` panics exactly when `can_insert` is false. -/
theorem slottedPage_refines_sequence {pages : Nat → SlottedPage ps} (hpos : ∀ i, 1 ≤ suffix i)
    (hpages : ∀ i, (init ps).reserveSuffix (suffix i) = .ok (pages i))
    (h : Reach PageRun.step (fun s op => op.Callable suffix s.pages ∧ op.InOrder s.pages)
      (.start suffix pages) s) :
    (∀ i, Refines (suffix i) (s.model i) (s.pages i)) ∧
    (∀ op : PageOp, op.Callable suffix s.pages → op.InOrder s.pages →
      (op.Fits suffix s.pages → ∃ p, op.perform s.pages = .ok p) ∧
        (¬op.Fits suffix s.pages → op.perform s.pages = .error .panic)) ∧
    ∀ i slotId e, slotId ≤ (s.pages i).numSlots → ((s.pages i).insert slotId e = .error .panic ↔
        (s.pages i).canInsert e.key.length e.value.length = false) ∧
      (s.pages i).insert slotId e ≠ .error .overflow := by
  have hinv := pagesInv_reach hpos hpages h
  refine ⟨fun i => (hinv i).refines, fun op hop hkeys => ?_, fun i slotId e hslot => ?_⟩
  · obtain ⟨hfit, hpanic⟩ := perform_spec hinv hop hkeys
    exact ⟨fun hfits => (hfit hfits).imp fun _ hp => hp.1, hpanic⟩
  · rcases (hinv i).insert_cases hslot e with ⟨q, hq, hcan⟩ | ⟨hq, hcan⟩
    · simp [hq, hcan]
    · simp [hq, hcan]

end

/-! ### Pages of 4 KiB with one reserved byte -/

section Small

variable {s : PageRun .k4}

theorem not_stuck_small {p : SlottedPage .k4} (h : Stuck 1 p) : False :=
  absurd h.full (by decide)

theorem insert_first (h : PagesInv (fun _ => 1) s) {i : Nat} (hm : (s.model i).entries = [])
    (e : Entry) (he : e.len = 1) :
    (PageOp.insert i e).Callable (fun _ => 1) s.pages ∧
      ∃ s', s.step (.insert i e) = some s' ∧ PagesInv (fun _ => 1) s' ∧
        (s'.model i).entries = [e] ∧ ∀ j, j ≠ i → s'.model j = s.model j := by
  have hcall : (PageOp.insert i e).Callable (fun _ => 1) s.pages := by
    refine ⟨by rw [(h i).entries_eq, hm]; nofun, ?_⟩
    rcases (h i).layout with ⟨es, hlayout, hes⟩ | ⟨hstuck, -⟩
    · rw [canInsert_iff_pageLen hlayout, hes, hm]
      simp only [pageLen, slottedLen, nil_append, map_cons, map_nil, sum_cons, sum_nil, he]
      decide
    · exact (not_stuck_small hstuck).elim
  obtain ⟨q, hq, -⟩ := (h i).insert_ok hcall.1 hcall.2
  have hstep : s.step (.insert i e) = some {
      pages := update s.pages i q
      model := update s.model i ((PageOp.insert i e).expected .k4 s.model) } := by
    rw [PageRun.step, PageOp.perform, hq]
    rfl
  refine ⟨hcall, _, hstep, pagesInv_step h hcall trivial hstep, ?_, ?_⟩
  · simp only [update_self, PageOp.expected, hm, orderedInsert_nil]
  · intro j hj
    simp only [update_of_ne hj]

def smallPage : SlottedPage .k4 := ((init .k4).setDataOffset 4095).setSpaceUsed 1

theorem reserveSuffix_one : (init .k4).reserveSuffix 1 = .ok smallPage :=
  reserveSuffix_init 1

def smallEntry (key : UInt8) : Entry := ⟨[key], []⟩

/-- Page 0 holds one entry and page 1 another, which is then copied behind the first. -/
theorem copy_second (a b : UInt8) :
    ∃ s s' : PageRun .k4, PagesInv (fun _ => 1) s ∧
      Reach PageRun.step (fun s op => op.Callable (fun _ => 1) s.pages ∧ op.InOrder s.pages)
        (.start (fun _ => 1) fun _ => smallPage) s ∧
      (PageOp.copy 1 0 0 1).Callable (fun _ => 1) s.pages ∧
      (s.model 0).entries = [smallEntry a] ∧ (s.model 1).entries = [smallEntry b] ∧
      s.step (.copy 1 0 0 1) = some s' ∧ (s'.pages 0).entries = [smallEntry a, smallEntry b] := by
  have hstart : PagesInv (fun _ => 1) (.start (fun _ => 1) fun _ => smallPage) :=
    pagesInv_reach (fun _ => le_rfl) (fun _ => reserveSuffix_one) .refl
  obtain ⟨hcall, s₁, hstep, hinv, hentries, hother⟩ :=
    insert_first hstart (i := 0) rfl (smallEntry a) rfl
  obtain ⟨hcall', s₂, hstep', hinv', hentries', hother'⟩ :=
    insert_first hinv (i := 1) (by rw [hother 1 (by decide)]; rfl) (smallEntry b) rfl
  have hzero : (s₂.model 0).entries = [smallEntry a] := by rw [hother' 0 (by decide), hentries]
  -- both pages have a layout, since one reserved byte leaves room
  have hlayout : ∀ i, ∃ es, Layout 1 es (s₂.pages i) ∧ entriesOf es = (s₂.model i).entries :=
    fun i => (hinv' i).layout.resolve_right fun ⟨hstuck, _⟩ => not_stuck_small hstuck
  obtain ⟨es, hes, hesEntries⟩ := hlayout 0
  obtain ⟨fs, hfs, hfsEntries⟩ := hlayout 1
  rw [hzero] at hesEntries
  rw [hentries'] at hfsEntries
  have hcount : (s₂.pages 1).numSlots = 1 := by rw [(hinv' 1).count, hentries']; rfl
  have hcopy := copySlots_spec hfs hes (k := 0) (n := 1) (by rw [← hfs.count, hcount])
  have hroom : pageLen 1 ([smallEntry a] ++ (([smallEntry b]).drop 0).take 1) ≤
      PageSize.bytes .k4 := by
    simp only [pageLen, slottedLen, smallEntry, Entry.len, drop_zero, take_succ_cons, take_zero,
      cons_append, nil_append, map_cons, map_nil, sum_cons, sum_nil, length_cons, length_nil]
    decide
  rw [hesEntries, hfsEntries, if_pos hroom] at hcopy
  obtain ⟨q, es', hq, hlayout', hall, -⟩ := hcopy
  refine ⟨s₂, ⟨update s₂.pages 0 q,
      update s₂.model 0 ((PageOp.copy 1 0 0 1).expected .k4 s₂.model)⟩, hinv',
    .tail _ (.tail _ .refl ⟨hcall, trivial⟩ hstep) ⟨hcall', trivial⟩ hstep',
    ⟨by decide, by rw [hcount]⟩, hzero, hentries', ?_, ?_⟩
  · rw [PageRun.step, PageOp.perform, copyKeyValueRange, hq]
    rfl
  · simp only [update_self, entries_eq hlayout', hall]
    rfl

/-- Two inserts and a copy in key order. -/
theorem slottedPage_refines_sequence_small :
    ∃ s : PageRun .k4, (s.pages 0).entries = [smallEntry 5, smallEntry 7] ∧
      Reach PageRun.step (fun s op => op.Callable (fun _ => 1) s.pages ∧ op.InOrder s.pages)
        (.start (fun _ => 1) fun _ => smallPage) s ∧
      ∀ i, Refines 1 (s.model i) (s.pages i) := by
  obtain ⟨s, s', hinv, hreach, hcall, hzero, hone, hstep, hentries⟩ := copy_second 5 7
  have horder : (PageOp.copy 1 0 0 1).InOrder s.pages := by
    rw [PageOp.InOrder, (hinv 0).entries_eq, (hinv 1).entries_eq, hzero, hone]
    decide
  have hreach' := hreach.tail (.copy 1 0 0 1) ⟨hcall, horder⟩ hstep
  exact ⟨s', hentries, hreach', (slottedPage_refines_sequence (fun _ => le_rfl)
    (fun _ => reserveSuffix_one) hreach').1⟩

/-- A copy of a smaller key ends above the larger one. -/
theorem copy_breaks_order :
    ∃ s : PageRun .k4, Reach PageRun.step (fun s op => op.Callable (fun _ => 1) s.pages)
      (.start (fun _ => 1) fun _ => smallPage) s ∧
      (s.pages 0).entries = [smallEntry 5, smallEntry 3] ∧ ¬Sorted (s.pages 0).entries := by
  obtain ⟨s, s', -, hreach, hcall, -, -, hstep, hentries⟩ := copy_second 5 3
  refine ⟨s', (hreach.mono fun _ _ h => h.1).tail _ hcall hstep, hentries, ?_⟩
  rw [hentries, Sorted, smallEntry, smallEntry]
  decide

end Small

end Pagebox.Storage
