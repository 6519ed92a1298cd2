import Mathlib.Data.List.Lex
import Pagebox.Base.Bytes

/-!
# The order of byte strings

Byte strings are compared lexicographically.  The big-endian value of the first
bytes of a string, padded with zeros, decides the order whenever it differs.
-/

namespace Pagebox.Base

instance byteOrder : LinearOrder UInt8 where
  le_refl := UInt8.le_refl
  le_trans _ _ _ := UInt8.le_trans
  lt_iff_le_not_ge a b := by
    rw [UInt8.lt_iff_toNat_lt, UInt8.le_iff_toNat_le, UInt8.le_iff_toNat_le]
    omega
  le_antisymm _ _ := UInt8.le_antisymm
  le_total := UInt8.le_total
  toDecidableLE := inferInstance
  toDecidableLT := inferInstance
  toDecidableEq := inferInstance
  compare_eq_compareOfLessAndEq _ _ := rfl

/-- The number a big-endian byte string stands for. -/
def beNat : Bytes → Nat
  | [] => 0
  | b :: bs => b.toNat * 256 ^ bs.length + beNat bs

/-- The first `width` bytes, padded with zeros. -/
def firstBytes : Nat → Bytes → Bytes
  | 0, _ => []
  | width + 1, [] => 0 :: firstBytes width []
  | width + 1, b :: bs => b :: firstBytes width bs

theorem beNat_lt (bytes : Bytes) : beNat bytes < 256 ^ bytes.length := by
  induction bytes with
  | nil => simp [beNat]
  | cons b bs ih =>
    have hb : b.toNat < 256 := UInt8.toNat_lt b
    calc
      beNat (b :: bs) = b.toNat * 256 ^ bs.length + beNat bs := rfl
      _ < b.toNat * 256 ^ bs.length + 256 ^ bs.length := by omega
      _ = (b.toNat + 1) * 256 ^ bs.length := by ring
      _ ≤ 256 * 256 ^ bs.length := Nat.mul_le_mul_right _ hb
      _ = 256 ^ (b :: bs).length := by rw [List.length_cons, Nat.pow_succ, Nat.mul_comm]

theorem beNat_cons_lt {a b : UInt8} {as bs : Bytes} (hlen : as.length = bs.length) (h : a < b) :
    beNat (a :: as) < beNat (b :: bs) := by
  have hab : a.toNat + 1 ≤ b.toNat := UInt8.lt_iff_toNat_lt.mp h
  have has := beNat_lt as
  calc
    beNat (a :: as) = a.toNat * 256 ^ as.length + beNat as := rfl
    _ < (a.toNat + 1) * 256 ^ as.length := by rw [Nat.succ_mul]; omega
    _ ≤ b.toNat * 256 ^ as.length := Nat.mul_le_mul_right _ hab
    _ ≤ beNat (b :: bs) := by rw [hlen, beNat]; omega

theorem beNat_lt_iff {as bs : Bytes} (hlen : as.length = bs.length) :
    beNat as < beNat bs ↔ as < bs := by
  induction as generalizing bs with
  | nil =>
    cases bs with
    | nil => simp
    | cons b bs => simp at hlen
  | cons a as ih =>
    cases bs with
    | nil => simp at hlen
    | cons b bs =>
      have htail : as.length = bs.length := by simpa using hlen
      rw [List.cons_lt_cons_iff]
      rcases lt_trichotomy a b with hab | hab | hab
      · simp [hab, beNat_cons_lt htail hab]
      · rw [hab, ← ih htail, beNat, beNat, htail]
        simp
      · have hgt := beNat_cons_lt htail.symm hab
        simp [hab.not_gt, hab.ne', hgt.not_gt]

@[simp] theorem length_firstBytes (width : Nat) (bytes : Bytes) :
    (firstBytes width bytes).length = width := by
  induction width generalizing bytes with
  | zero => rfl
  | succ width ih => cases bytes <;> simp [firstBytes, ih]

/-- The padded first bytes decide the order when they differ. -/
theorem lt_of_firstBytes_lt {width : Nat} {as bs : Bytes}
    (h : firstBytes width as < firstBytes width bs) : as < bs := by
  induction width generalizing as bs with
  | zero => simp [firstBytes] at h
  | succ width ih =>
    cases as with
    | nil =>
      cases bs with
      | nil => exact absurd h (lt_irrefl _)
      | cons b bs => exact List.nil_lt_cons b bs
    | cons a as =>
      cases bs with
      | nil =>
        rw [firstBytes, firstBytes, List.cons_lt_cons_iff] at h
        rcases h with h | ⟨rfl, h⟩
        · exact absurd (UInt8.lt_iff_toNat_lt.mp h) (by simp)
        · exact absurd (ih h) (List.not_lt_nil as)
      | cons b bs =>
        rw [firstBytes, firstBytes, List.cons_lt_cons_iff] at h
        rw [List.cons_lt_cons_iff]
        exact h.imp_right fun ⟨hab, h⟩ => ⟨hab, ih h⟩

end Pagebox.Base
