import Pagebox.Page
import Pagebox.Wal.Format

/-!
# Page patches

The payload of a page patch: a page id and byte ranges with their new contents
(`encode_page_patch_ranges_payload` and `decode_page_patch_payload` of
`wal/src/wal_impl.rs`).  A patch turns a page into another one when its ranges
carry the bytes of the new page and cover every byte that differs.
-/

namespace Pagebox.Wal

open Pagebox.Base List

abbrev PatchRange := Nat × Bytes

def pagePatchHeaderLen : Nat := 16

def pagePatchRangeHeaderLen : Nat := 8

/-- The encoded length of ranges that are non-empty, ordered, disjoint and inside
the page; `previousEnd` is where the range before them ends. -/
def patchRangesLen (ps : PageSize) : Nat → List PatchRange → Option Nat
  | _, [] => some 0
  | previousEnd, (start, data) :: ranges =>
    if data.isEmpty ∨ start < previousEnd then none
    else if ps.bytes < start + data.length then none
    else (patchRangesLen ps (start + data.length) ranges).map fun len =>
      pagePatchRangeHeaderLen + data.length + len

def encodePatchRange (range : PatchRange) : Bytes :=
  leBytes 4 range.1 ++ leBytes 4 range.2.length ++ range.2

/-- `encode_page_patch_ranges_payload`.  The conversions to `u32` cannot fail:
offsets, lengths and the number of ranges are bounded by the page size. -/
def encodePagePatchRangesPayload (ps : PageSize) (pageId : Nat) (ranges : List PatchRange) :
    Option Bytes :=
  if ranges.isEmpty then none
  else
    match patchRangesLen ps 0 ranges with
    | none => none
    | some len =>
      if ps.bytes ≤ pagePatchHeaderLen + len then none
      else some (leBytes 8 pageId ++ leBytes 4 ranges.length ++ leBytes 4 0 ++
        ranges.flatMap encodePatchRange)

/-- The loop of `decode_page_patch_payload` over `count` ranges. -/
def decodePatchRanges (ps : PageSize) : Nat → Bytes → Option (List PatchRange)
  | 0, payload => if payload.isEmpty then some [] else none
  | count + 1, payload =>
    if payload.length < pagePatchRangeHeaderLen then none
    else
      let start := leNat (payload.take 4)
      let len := leNat ((payload.drop 4).take 4)
      let rest := payload.drop pagePatchRangeHeaderLen
      if ps.bytes < start + len then none
      else if rest.length < len then none
      else (decodePatchRanges ps count (rest.drop len)).map ((start, rest.take len) :: ·)

def decodePagePatchPayload (ps : PageSize) (payload : Bytes) : Option (Nat × List PatchRange) :=
  if payload.length < pagePatchHeaderLen then none
  else
    let pageId := leNat (payload.take 8)
    let count := leNat ((payload.drop 8).take 4)
    (decodePatchRanges ps count (payload.drop pagePatchHeaderLen)).map (pageId, ·)

/-- The loop of `recover_page_patch` that copies the ranges into the page. -/
def applyRanges {ps : PageSize} (p : Page ps) (ranges : List PatchRange) : Page ps :=
  ranges.foldl (fun p range => p.write range.1 range.2) p

/-! ## Encoding and decoding -/

section RoundTrip

variable {ps : PageSize}

theorem patchRangesLen_cons {previousEnd start len : Nat} {data : Bytes} {ranges : List PatchRange}
    (h : patchRangesLen ps previousEnd ((start, data) :: ranges) = some len) :
    data ≠ [] ∧ previousEnd ≤ start ∧ start + data.length ≤ ps.bytes ∧
      ∃ rest, patchRangesLen ps (start + data.length) ranges = some rest ∧
        len = pagePatchRangeHeaderLen + data.length + rest := by
  unfold patchRangesLen at h
  split at h
  · cases h
  rename_i hok
  split at h
  · cases h
  obtain ⟨rest, hrest, hlen⟩ := Option.map_eq_some_iff.mp h
  have hne : data ≠ [] := by
    intro hnil
    exact hok (Or.inl (by simp [hnil]))
  exact ⟨hne, by omega, by omega, rest, hrest, hlen.symm⟩

theorem patchRangesLen_inside {ranges : List PatchRange} {previousEnd len : Nat}
    (h : patchRangesLen ps previousEnd ranges = some len) :
    ∀ range ∈ ranges, range.1 + range.2.length ≤ ps.bytes := by
  induction ranges generalizing previousEnd len with
  | nil => simp
  | cons range ranges ih =>
    obtain ⟨start, data⟩ := range
    obtain ⟨-, -, hin, rest, hrest, -⟩ := patchRangesLen_cons h
    intro range hrange
    rcases mem_cons.mp hrange with rfl | hmem
    · exact hin
    · exact ih hrest range hmem

theorem length_flatMap_encodePatchRange {ranges : List PatchRange} {previousEnd len : Nat}
    (h : patchRangesLen ps previousEnd ranges = some len) :
    (ranges.flatMap encodePatchRange).length = len := by
  induction ranges generalizing previousEnd len with
  | nil =>
    cases h
    rfl
  | cons range ranges ih =>
    obtain ⟨start, data⟩ := range
    obtain ⟨-, -, -, rest, hrest, rfl⟩ := patchRangesLen_cons h
    rw [flatMap_cons, length_append, ih hrest]
    simp [encodePatchRange, pagePatchRangeHeaderLen]
    omega

theorem length_le_patchRangesLen {ranges : List PatchRange} {previousEnd len : Nat}
    (h : patchRangesLen ps previousEnd ranges = some len) : ranges.length ≤ len := by
  induction ranges generalizing previousEnd len with
  | nil => simp
  | cons range ranges ih =>
    obtain ⟨start, data⟩ := range
    obtain ⟨-, -, -, rest, hrest, rfl⟩ := patchRangesLen_cons h
    have := ih hrest
    simp only [length_cons, pagePatchRangeHeaderLen]
    omega

theorem bytes_lt_u32 (ps : PageSize) : ps.bytes < 256 ^ 4 := by
  have := PageSize.bytes_le ps
  omega

theorem decodePatchRanges_flatMap {ranges : List PatchRange} {previousEnd len : Nat}
    (h : patchRangesLen ps previousEnd ranges = some len) :
    decodePatchRanges ps ranges.length (ranges.flatMap encodePatchRange) = some ranges := by
  induction ranges generalizing previousEnd len with
  | nil => rfl
  | cons range ranges ih =>
    obtain ⟨start, data⟩ := range
    obtain ⟨-, -, hin, rest, hrest, -⟩ := patchRangesLen_cons h
    have hpage := bytes_lt_u32 ps
    have hstart : leNat (leBytes 4 start) = start := leNat_leBytes (by omega)
    have hlen : leNat (leBytes 4 data.length) = data.length := leNat_leBytes (by omega)
    have hbytes : ((start, data) :: ranges).flatMap encodePatchRange =
        leBytes 4 start ++ (leBytes 4 data.length ++
          (data ++ ranges.flatMap encodePatchRange)) := by
      simp [encodePatchRange]
    rw [hbytes, length_cons, decodePatchRanges]
    have hlong : ¬(leBytes 4 start ++ (leBytes 4 data.length ++
        (data ++ ranges.flatMap encodePatchRange))).length < pagePatchRangeHeaderLen := by
      simp [pagePatchRangeHeaderLen]
      omega
    have hdrop : (leBytes 4 start ++ (leBytes 4 data.length ++
        (data ++ ranges.flatMap encodePatchRange))).drop pagePatchRangeHeaderLen =
          data ++ ranges.flatMap encodePatchRange := by
      rw [← append_assoc]
      exact drop_left' (by simp [pagePatchRangeHeaderLen])
    rw [if_neg hlong]
    simp only [hdrop]
    simp [hstart, hlen, ih hrest]
    omega

theorem decode_encodePagePatchRangesPayload {pageId : Nat} {ranges : List PatchRange}
    {payload : Bytes} (hid : pageId < 2 ^ 64)
    (h : encodePagePatchRangesPayload ps pageId ranges = some payload) :
    decodePagePatchPayload ps payload = some (pageId, ranges) := by
  unfold encodePagePatchRangesPayload at h
  split at h
  · cases h
  split at h
  · cases h
  rename_i len hlen
  split at h
  · cases h
  cases h
  have hcount : leNat (leBytes 4 ranges.length) = ranges.length := by
    have h1 := length_le_patchRangesLen hlen
    have h2 := bytes_lt_u32 ps
    exact leNat_leBytes (by omega)
  have hpid : leNat (leBytes 8 pageId) = pageId :=
    leNat_leBytes (by norm_num at hid ⊢; omega)
  have hdrop : (leBytes 8 pageId ++ leBytes 4 ranges.length ++ leBytes 4 0 ++
      ranges.flatMap encodePatchRange).drop pagePatchHeaderLen =
        ranges.flatMap encodePatchRange :=
    drop_left' (by simp [pagePatchHeaderLen])
  rw [decodePagePatchPayload, if_neg (by simp [pagePatchHeaderLen]; omega)]
  simp only [hdrop]
  simp [hpid, hcount, decodePatchRanges_flatMap hlen]

/-- The length and the first bytes of an encoded patch. -/
theorem encodePagePatchRangesPayload_some {pageId : Nat} {ranges : List PatchRange}
    {payload : Bytes} (h : encodePagePatchRangesPayload ps pageId ranges = some payload) :
    payload.length < ps.bytes ∧ payload.take 8 = leBytes 8 pageId ∧
      ∀ range ∈ ranges, range.1 + range.2.length ≤ ps.bytes := by
  unfold encodePagePatchRangesPayload at h
  split at h
  · cases h
  split at h
  · cases h
  rename_i len hlen
  split at h
  · cases h
  rename_i hsmall
  cases h
  refine ⟨?_, ?_, patchRangesLen_inside hlen⟩
  · have := length_flatMap_encodePatchRange hlen
    simp only [length_append, length_leBytes, this]
    unfold pagePatchHeaderLen at hsmall
    omega
  · rw [append_assoc, append_assoc]
    exact take_left' (by simp)

end RoundTrip

/-! ## Applying a patch -/

section Apply

variable {ps : PageSize} {old new : Page ps}

def Carries (new : Page ps) (range : PatchRange) : Prop :=
  range.1 + range.2.length ≤ ps.bytes ∧ ∀ i < range.2.length, range.2[i]? = new.bytes[range.1 + i]?

def InRange (range : PatchRange) (i : Nat) : Prop := range.1 ≤ i ∧ i < range.1 + range.2.length

theorem carries_slice (new : Page ps) {start stop : Nat} (h : stop ≤ ps.bytes)
    (hlt : start ≤ stop) : Carries new (start, new.slice start stop) := by
  refine ⟨?_, ?_⟩
  · rw [Page.length_slice h]
    omega
  · intro i hi
    rw [Page.length_slice h] at hi
    exact Page.getElem?_slice (by omega)

/-- Patching with ranges that carry the new bytes and cover every difference
gives the new page. -/
theorem applyRanges_eq {ranges : List PatchRange} (hcarry : ∀ range ∈ ranges, Carries new range)
    (hcover : ∀ i : Nat, old.bytes[i]? ≠ new.bytes[i]? → ∃ range ∈ ranges, InRange range i) :
    applyRanges old ranges = new := by
  induction ranges generalizing old with
  | nil =>
    apply Page.ext_getElem?
    intro i
    by_contra hne
    obtain ⟨range, hmem, -⟩ := hcover i hne
    cases hmem
  | cons range ranges ih =>
    obtain ⟨hin, hbytes⟩ := hcarry range mem_cons_self
    apply ih (fun r hr => hcarry r (mem_cons_of_mem range hr))
    intro i hne
    rw [Page.getElem?_write hin] at hne
    by_cases hi : range.1 ≤ i ∧ i < range.1 + range.2.length
    · rw [if_pos hi, hbytes (i - range.1) (by omega)] at hne
      exact absurd (by congr 1; omega) hne
    · rw [if_neg hi] at hne
      obtain ⟨r, hr, hir⟩ := hcover i hne
      rcases mem_cons.mp hr with rfl | hmem
      · exact absurd hir hi
      · exact ⟨r, hmem, hir⟩

end Apply

end Pagebox.Wal
