import Pagebox.Base.Bytes

/-!
# Files with positioned reads and writes

A file as its bytes, with `pread`, `pwrite` and `ftruncate`: a write behind the end and
a truncation to a larger length fill the gap with zeros, and a read that would pass the
end fails.
-/

namespace Pagebox.Base

/-- The bytes of a range, if the file has all of them. -/
def pread (file : Bytes) (offset len : Nat) : Option Bytes :=
  if offset + len ≤ file.length then some ((file.drop offset).take len) else none

def pwrite (file : Bytes) (offset : Nat) (data : Bytes) : Bytes :=
  writeAt (padTo (offset + data.length) file) offset data

def ftruncate (file : Bytes) (len : Nat) : Bytes := (padTo len file).take len

section

variable {file file' data : Bytes} {offset len start n : Nat}

theorem length_padTo_max (size : Nat) (bytes : Bytes) :
    (padTo size bytes).length = max bytes.length size := by
  rw [padTo, List.length_append, List.length_replicate]
  omega

theorem getElem?_padTo (size : Nat) {bytes : Bytes} {i : Nat} (h : i < bytes.length) :
    (padTo size bytes)[i]? = bytes[i]? := by
  rw [padTo, List.getElem?_append_left h]

@[simp] theorem length_pwrite (file : Bytes) (offset : Nat) (data : Bytes) :
    (pwrite file offset data).length = max file.length (offset + data.length) := by
  rw [pwrite, length_writeAt, length_padTo_max]
  rw [length_padTo_max]
  exact Nat.le_max_right _ _

@[simp] theorem length_ftruncate (file : Bytes) (len : Nat) :
    (ftruncate file len).length = len := by
  rw [ftruncate, List.length_take, length_padTo_max]
  omega

theorem getElem?_pwrite (i : Nat) : (pwrite file offset data)[i]? =
      if offset ≤ i ∧ i < offset + data.length then data[i - offset]?
      else (padTo (offset + data.length) file)[i]? :=
  getElem?_writeAt (by rw [length_padTo_max]; exact Nat.le_max_right _ _) i

theorem getElem?_ftruncate {i : Nat} (hi : i < len) :
    (ftruncate file len)[i]? = (padTo len file)[i]? := by
  rw [ftruncate, List.getElem?_take, if_pos hi]

theorem pread_eq_none (h : file.length < offset + len) : pread file offset len = none :=
  if_neg (Nat.not_le_of_lt h)

theorem pread_isSome : (pread file offset len).isSome ↔ offset + len ≤ file.length := by
  rw [pread]
  split <;> simp_all

theorem pread_congr (hlen : offset + len ≤ file.length) (hlen' : offset + len ≤ file'.length)
    (h : ∀ i, offset ≤ i → i < offset + len → file[i]? = file'[i]?) :
    pread file offset len = pread file' offset len := by
  rw [pread, pread, if_pos hlen, if_pos hlen']
  congr 1
  apply List.ext_getElem?
  intro i
  rw [List.getElem?_take, List.getElem?_take]
  split
  · rw [List.getElem?_drop, List.getElem?_drop]
    exact h (offset + i) (Nat.le_add_right _ _) (by omega)
  · rfl

theorem pread_pwrite_self : pread (pwrite file offset data) offset data.length = some data := by
  rw [pread, if_pos (by rw [length_pwrite]; exact Nat.le_max_right _ _)]
  congr 1
  apply List.ext_getElem?
  intro i
  rw [List.getElem?_take]
  split
  · rw [List.getElem?_drop, getElem?_pwrite, if_pos (by omega)]
    congr 1
    omega
  · rw [List.getElem?_eq_none (by omega)]

theorem pread_pwrite_of_disjoint (h : start + n ≤ file.length)
    (hdisjoint : start + n ≤ offset ∨ offset + data.length ≤ start) :
    pread (pwrite file offset data) start n = pread file start n := by
  refine pread_congr ?_ h fun i hlow hhigh => ?_
  · rw [length_pwrite]
    exact h.trans (Nat.le_max_left _ _)
  · rw [getElem?_pwrite, if_neg (by omega), getElem?_padTo _ (by omega)]

/-- Outside of what is written, only where a write begins counts. -/
theorem pread_pwrite_congr {a b : Bytes} (hn : 0 < n) (hdisjoint : start + n ≤ offset ∨
      offset + a.length ≤ start ∧ offset + b.length ≤ start) :
    pread (pwrite file offset a) start n = pread (pwrite file offset b) start n := by
  rcases hdisjoint with hbefore | ⟨ha, hb⟩
  · refine pread_congr (by rw [length_pwrite]; omega) (by rw [length_pwrite]; omega) ?_
    intro i _ hi
    have hpad : ∀ data : Bytes, (pwrite file offset data)[i]? = (padTo offset file)[i]? := by
      intro data
      rw [getElem?_pwrite, if_neg (by omega)]
      simp only [padTo, List.getElem?_append, List.getElem?_replicate]
      grind
    rw [hpad, hpad]
  · by_cases hlen : start + n ≤ file.length
    · rw [pread_pwrite_of_disjoint hlen (.inr ha), pread_pwrite_of_disjoint hlen (.inr hb)]
    · rw [pread_eq_none (by rw [length_pwrite]; omega),
        pread_eq_none (by rw [length_pwrite]; omega)]

/-- Two writes one behind the other are one. -/
theorem pwrite_pwrite (file : Bytes) (offset : Nat) (a b : Bytes) :
    pwrite (pwrite file offset a) (offset + a.length) b = pwrite file offset (a ++ b) := by
  apply List.ext_getElem?
  intro i
  simp only [getElem?_pwrite, padTo, List.getElem?_append, List.getElem?_replicate, length_pwrite,
    List.length_append]
  grind

theorem pread_ftruncate (h : start + n ≤ file.length) (hlen : start + n ≤ len) :
    pread (ftruncate file len) start n = pread file start n := by
  refine pread_congr ?_ h fun i _ hhigh => ?_
  · rw [length_ftruncate]
    exact hlen
  · rw [getElem?_ftruncate (by omega), getElem?_padTo _ (by omega)]

end

end Pagebox.Base
