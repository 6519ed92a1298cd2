import Pagebox.Base.Bytes
import Pagebox.PageSize

/-!
# Pages

A page is a byte string of the page size; its first eight bytes hold the page
LSN (`page_header.rs`).
-/

namespace Pagebox

open Pagebox.Base List

structure Page (ps : PageSize) where
  bytes : Bytes
  size : bytes.length = ps.bytes
  deriving DecidableEq

namespace Page

variable {ps : PageSize}

def zero (ps : PageSize) : Page ps := ⟨replicate ps.bytes 0, by simp⟩

def ofBytes? (ps : PageSize) (data : Bytes) : Option (Page ps) :=
  if h : data.length = ps.bytes then some ⟨data, h⟩ else none

variable (p : Page ps)

def write (offset : Nat) (data : Bytes) : Page ps :=
  if h : offset + data.length ≤ ps.bytes then
    ⟨writeAt p.bytes offset data, by rw [length_writeAt (by rw [p.size]; exact h), p.size]⟩
  else p

def slice (start stop : Nat) : Bytes := (p.bytes.drop start).take (stop - start)

def lsn : Nat := leNat (p.bytes.take 8)

def writeLsn (lsn : Nat) : Page ps := p.write 0 (leBytes 8 lsn)

theorem ext_bytes {p q : Page ps} (h : p.bytes = q.bytes) : p = q := by
  cases p
  cases q
  cases h
  rfl

theorem ext_getElem? {p q : Page ps} (h : ∀ i : Nat, p.bytes[i]? = q.bytes[i]?) : p = q :=
  ext_bytes (List.ext_getElem? h)

theorem getElem?_write {p : Page ps} {offset : Nat} {data : Bytes}
    (h : offset + data.length ≤ ps.bytes) (i : Nat) :
    (p.write offset data).bytes[i]? =
      if offset ≤ i ∧ i < offset + data.length then data[i - offset]? else p.bytes[i]? := by
  rw [write, dif_pos h]
  exact getElem?_writeAt (by rw [p.size]; exact h) i

theorem getElem?_slice {p : Page ps} {start stop i : Nat} (hi : start + i < stop) :
    (p.slice start stop)[i]? = p.bytes[start + i]? := by
  rw [slice, List.getElem?_take, if_pos (by omega), List.getElem?_drop]

theorem length_slice {p : Page ps} {start stop : Nat} (h : stop ≤ ps.bytes) :
    (p.slice start stop).length = stop - start := by
  have hsize := p.size
  rw [slice, length_take, length_drop]
  omega

theorem eight_le_bytes (ps : PageSize) : 8 ≤ ps.bytes := by
  have := PageSize.le_bytes ps
  omega

theorem lsn_fits (ps : PageSize) (lsn : Nat) : 0 + (leBytes 8 lsn).length ≤ ps.bytes := by
  have := eight_le_bytes ps
  rw [length_leBytes]
  omega

theorem take_writeLsn (lsn : Nat) : (p.writeLsn lsn).bytes.take 8 = leBytes 8 lsn := by
  have htake := take_writeAt (Nat.zero_le p.bytes.length) (leBytes 8 lsn)
  rw [writeLsn, write, dif_pos (lsn_fits ps lsn)]
  simpa using htake

theorem lsn_writeLsn {lsn : Nat} (h : lsn < 2 ^ 64) : (p.writeLsn lsn).lsn = lsn := by
  rw [Page.lsn, take_writeLsn]
  exact leNat_leBytes (by norm_num at h ⊢; omega)

theorem slice_writeLsn (lsn : Nat) : (p.writeLsn lsn).slice 0 8 = leBytes 8 lsn := by
  exact take_writeLsn p lsn

/-- The LSN bytes aside, writing the LSN changes nothing. -/
theorem getElem?_writeLsn (lsn : Nat) {i : Nat} (hi : 8 ≤ i) :
    (p.writeLsn lsn).bytes[i]? = p.bytes[i]? := by
  rw [writeLsn, getElem?_write (lsn_fits ps lsn), length_leBytes, if_neg (by omega)]

/-! ## Slices and writes -/

theorem slice_write_of_disjoint {offset start stop : Nat} {data : Bytes}
    (h : stop ≤ offset ∨ offset + data.length ≤ start) :
    (p.write offset data).slice start stop = p.slice start stop := by
  by_cases hfit : offset + data.length ≤ ps.bytes
  · apply List.ext_getElem?
    intro i
    rw [slice, slice, List.getElem?_take, List.getElem?_take]
    split
    · rw [List.getElem?_drop, List.getElem?_drop, getElem?_write hfit, if_neg (by omega)]
    · rfl
  · rw [write, dif_neg hfit]

theorem slice_write_inside {offset start stop : Nat} {data : Bytes}
    (hfit : offset + data.length ≤ ps.bytes) (hstart : offset ≤ start)
    (hstop : stop ≤ offset + data.length) :
    (p.write offset data).slice start stop = (data.drop (start - offset)).take (stop - start) := by
  apply List.ext_getElem?
  intro i
  rw [slice, List.getElem?_take, List.getElem?_take]
  split
  · rw [List.getElem?_drop, List.getElem?_drop, getElem?_write hfit, if_pos (by omega)]
    congr 1
    omega
  · rfl

theorem slice_write {offset : Nat} {data : Bytes}
    (hfit : offset + data.length ≤ ps.bytes) :
    (p.write offset data).slice offset (offset + data.length) = data := by
  rw [slice_write_inside p hfit le_rfl le_rfl]
  simp

theorem slice_append {a b c : Nat} (hab : a ≤ b) (hbc : b ≤ c) :
    p.slice a c = p.slice a b ++ p.slice b c := by
  have hc : c - a = (b - a) + (c - b) := by omega
  have hb : a + (b - a) = b := by omega
  rw [slice, slice, slice, hc, take_add, List.drop_drop, hb]

theorem drop_take_slice {a b k w : Nat} (h : k + w ≤ b - a) :
    ((p.slice a b).drop k).take w = p.slice (a + k) (a + k + w) := by
  have hw : a + k + w - (a + k) = w := by omega
  rw [slice, slice, hw, drop_take, take_take, List.drop_drop, Nat.min_eq_left (by omega)]

/-- A write inside a slice is a write into that slice. -/
theorem slice_write_within {offset start stop : Nat} {data : Bytes}
    (hstart : start ≤ offset) (hstop : offset + data.length ≤ stop) (hfit : stop ≤ ps.bytes) :
    (p.write offset data).slice start stop =
      writeAt (p.slice start stop) (offset - start) data := by
  have htake : (p.slice start stop).take (offset - start) = p.slice start offset := by
    have := drop_take_slice p (a := start) (b := stop) (k := 0) (w := offset - start) (by omega)
    rwa [drop_zero, Nat.add_zero, Nat.add_sub_cancel' hstart] at this
  have hdrop : (p.slice start stop).drop (offset - start + data.length) =
      p.slice (offset + data.length) stop := by
    have hpos : start + (offset - start + data.length) = offset + data.length := by omega
    have hlen : stop - start - (offset - start + data.length) = stop - (offset + data.length) := by
      omega
    rw [slice, slice, drop_take, List.drop_drop, hpos, hlen]
  rw [writeAt, htake, hdrop, slice_append _ (b := offset + data.length) (by omega) hstop,
    slice_append _ (b := offset) hstart (by omega), slice_write p (by omega),
    slice_write_of_disjoint p (.inl le_rfl), slice_write_of_disjoint p (.inr le_rfl)]

theorem write_slice {offset width : Nat} (hfit : offset + width ≤ ps.bytes) :
    p.write offset (p.slice offset (offset + width)) = p := by
  have hlen : (p.slice offset (offset + width)).length = width := by
    rw [length_slice hfit]
    omega
  apply ext_getElem?
  intro i
  rw [getElem?_write (by omega), hlen]
  split
  · rw [getElem?_slice (by omega)]
    congr 1
    omega
  · rfl

def readNat (offset width : Nat) : Nat := leNat (p.slice offset (offset + width))

def writeNat (offset width n : Nat) : Page ps := p.write offset (leBytes width n)

theorem readNat_writeNat {offset width n : Nat} (hfit : offset + width ≤ ps.bytes)
    (hn : n < 256 ^ width) : (p.writeNat offset width n).readNat offset width = n := by
  have hlen : offset + (leBytes width n).length ≤ ps.bytes := by simpa using hfit
  have hslice := slice_write p hlen
  rw [length_leBytes] at hslice
  rw [readNat, writeNat, hslice, leNat_leBytes hn]

theorem writeNat_readNat {offset width : Nat} (hfit : offset + width ≤ ps.bytes) :
    p.writeNat offset width (p.readNat offset width) = p := by
  have hlen : (p.slice offset (offset + width)).length = width := by
    rw [length_slice hfit]
    omega
  have hbytes := leBytes_leNat (p.slice offset (offset + width))
  rw [hlen] at hbytes
  rw [writeNat, readNat, hbytes, write_slice p hfit]

theorem readNat_write_of_disjoint {offset at' width : Nat} {data : Bytes}
    (h : at' + width ≤ offset ∨ offset + data.length ≤ at') :
    (p.write offset data).readNat at' width = p.readNat at' width := by
  rw [readNat, readNat, slice_write_of_disjoint p h]

theorem readNat_writeNat_of_disjoint {offset at' width width' n : Nat}
    (h : at' + width ≤ offset ∨ offset + width' ≤ at') :
    (p.writeNat offset width' n).readNat at' width = p.readNat at' width :=
  readNat_write_of_disjoint p (by simpa using h)

theorem slice_writeNat_of_disjoint {offset start stop width n : Nat}
    (h : stop ≤ offset ∨ offset + width ≤ start) :
    (p.writeNat offset width n).slice start stop = p.slice start stop :=
  slice_write_of_disjoint p (by simpa using h)

end Page

end Pagebox
