import Mathlib.Data.List.Basic
import Mathlib.Data.Nat.Basic
import Mathlib.Tactic.Ring

/-!
# Byte strings

Fixed-width little-endian numbers, zero padding and writes at an offset.
-/

namespace Pagebox.Base

open List

abbrev Bytes := List UInt8

/-- The first number that does not fit into eight bytes. -/
def u64Limit : Nat := 2 ^ 64

/-- The little-endian encoding of `n` in `width` bytes. -/
def leBytes : Nat → Nat → Bytes
  | 0, _ => []
  | width + 1, n => UInt8.ofNat (n % 256) :: leBytes width (n / 256)

/-- The number a little-endian byte string stands for. -/
def leNat : Bytes → Nat
  | [] => 0
  | b :: bs => b.toNat + 256 * leNat bs

/-- `bytes` followed by zeros up to `size`. -/
def padTo (size : Nat) (bytes : Bytes) : Bytes :=
  bytes ++ replicate (size - bytes.length) 0

/-- Overwrite the bytes from `offset` on. -/
def writeAt (page : Bytes) (offset : Nat) (bytes : Bytes) : Bytes :=
  page.take offset ++ bytes ++ page.drop (offset + bytes.length)

@[simp] theorem length_leBytes (width n : Nat) : (leBytes width n).length = width := by
  induction width generalizing n with
  | zero => rfl
  | succ width ih => simp [leBytes, ih]

theorem leNat_leBytes {width n : Nat} (h : n < 256 ^ width) : leNat (leBytes width n) = n := by
  induction width generalizing n with
  | zero =>
    have hn : n = 0 := by simpa using h
    simp [leBytes, leNat, hn]
  | succ width ih =>
    have hdiv : n / 256 < 256 ^ width := by
      rw [Nat.div_lt_iff_lt_mul (by omega)]
      calc
        n < 256 ^ (width + 1) := h
        _ = 256 ^ width * 256 := by rw [Nat.pow_succ]
    have hmod : (UInt8.ofNat (n % 256)).toNat = n % 256 := by simp
    rw [leBytes, leNat, hmod, ih hdiv]
    exact Nat.mod_add_div n 256

theorem leNat_replicate_zero (n : Nat) : leNat (replicate n 0) = 0 := by
  induction n with
  | zero => rfl
  | succ n ih => rw [replicate_succ, leNat, ih]; rfl

theorem leBytes_leNat (bytes : Bytes) : leBytes bytes.length (leNat bytes) = bytes := by
  induction bytes with
  | nil => rfl
  | cons b bs ih =>
    have hb : b.toNat < 256 := UInt8.toNat_lt b
    have hmod : (b.toNat + 256 * leNat bs) % 256 = b.toNat := by omega
    have hdiv : (b.toNat + 256 * leNat bs) / 256 = leNat bs := by omega
    rw [length_cons, leNat, leBytes, hmod, hdiv, ih, UInt8.ofNat_toNat]

theorem length_padTo {size : Nat} {bytes : Bytes} (h : bytes.length ≤ size) :
    (padTo size bytes).length = size := by
  simp [padTo]
  omega

theorem take_padTo (size : Nat) (bytes : Bytes) : (padTo size bytes).take bytes.length = bytes := by
  simp [padTo]

theorem length_writeAt {page bytes : Bytes} {offset : Nat}
    (h : offset + bytes.length ≤ page.length) :
    (writeAt page offset bytes).length = page.length := by
  simp [writeAt]
  omega

theorem getElem?_writeAt {page bytes : Bytes} {offset : Nat}
    (h : offset + bytes.length ≤ page.length) (i : Nat) :
    (writeAt page offset bytes)[i]? =
      if offset ≤ i ∧ i < offset + bytes.length then bytes[i - offset]? else page[i]? := by
  have htake : (page.take offset).length = offset := by
    rw [length_take]
    omega
  simp only [writeAt, append_assoc]
  by_cases hlow : i < offset
  · rw [if_neg (by omega), List.getElem?_append_left (by omega), List.getElem?_take, if_pos hlow]
  rw [List.getElem?_append_right (by omega), htake]
  by_cases hin : i < offset + bytes.length
  · rw [if_pos (by omega), List.getElem?_append_left (by omega)]
  · rw [if_neg (by omega), List.getElem?_append_right (by omega), List.getElem?_drop]
    congr 1
    omega

/-- A write that starts where a prefix ends extends that prefix. -/
theorem take_writeAt {page : Bytes} {offset : Nat} (h : offset ≤ page.length) (bytes : Bytes) :
    (writeAt page offset bytes).take (offset + bytes.length) = page.take offset ++ bytes := by
  have hlen : (page.take offset ++ bytes).length = offset + bytes.length := by
    simp [Nat.min_eq_left h]
  rw [writeAt, ← hlen, take_left]

/-- A write over a part of the same length replaces that part. -/
theorem writeAt_middle {before old new behind : Bytes} {offset : Nat}
    (hoffset : before.length = offset) (hlen : old.length = new.length) :
    writeAt (before ++ (old ++ behind)) offset new = before ++ (new ++ behind) := by
  subst hoffset
  rw [writeAt, take_left, append_assoc, ← hlen, ← append_assoc before old,
    ← length_append, drop_left]

theorem writeAt_inside {before old new behind : Bytes} {start offset : Nat}
    (hstart : before.length = start) (hin : offset + new.length ≤ old.length) :
    writeAt (before ++ (old ++ behind)) (start + offset) new =
      before ++ (writeAt old offset new ++ behind) := by
  subst hstart
  have htake : (before ++ (old ++ behind)).take (before.length + offset) =
      before ++ old.take offset := by
    rw [take_append, take_of_length_le (Nat.le_add_right _ _), Nat.add_sub_cancel_left,
      take_append_of_le_length (by omega)]
  have hdrop : (before ++ (old ++ behind)).drop (before.length + offset + new.length) =
      old.drop (offset + new.length) ++ behind := by
    rw [Nat.add_assoc, ← List.drop_drop, drop_left, drop_append_of_le_length hin]
  rw [writeAt, htake, hdrop, writeAt]
  simp only [append_assoc]

theorem drop_take_middle {before part behind : Bytes} {offset width : Nat}
    (hoffset : before.length = offset) (hwidth : part.length = width) :
    ((before ++ (part ++ behind)).drop offset).take width = part := by
  subst hoffset
  subst hwidth
  rw [drop_left, take_left]

theorem writeAt_padTo (size : Nat) (bytes new : Bytes) :
    writeAt (padTo size bytes) bytes.length new = padTo size (bytes ++ new) := by
  have hdrop : (bytes ++ replicate (size - bytes.length) 0).drop (bytes.length + new.length) =
      replicate (size - (bytes ++ new).length) (0 : UInt8) := by
    rw [← List.drop_drop, drop_left, drop_replicate, length_append]
    congr 1
    omega
  rw [writeAt, padTo, take_left, hdrop, padTo]

theorem padTo_append_zeros {size : Nat} {bytes : Bytes} {n : Nat} (h : bytes.length + n ≤ size) :
    padTo size (bytes ++ replicate n 0) = padTo size bytes := by
  rw [padTo, padTo, append_assoc, replicate_append_replicate, length_append, length_replicate]
  congr 2
  omega

end Pagebox.Base
