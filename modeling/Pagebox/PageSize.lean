import Mathlib.Data.Nat.Basic

/-!
# Page sizes

`PAGE_SIZE` is a compile-time choice: 4 KiB with the feature `page-4k`, 64 KiB
otherwise.  Page ids are plain numbers, page 0 holds the file header.
-/

namespace Pagebox

inductive PageSize
  | k4
  | k64
  deriving DecidableEq

def PageSize.bytes : PageSize → Nat
  | .k4 => 4096
  | .k64 => 65536

theorem PageSize.le_bytes (ps : PageSize) : 4096 ≤ ps.bytes := by
  cases ps <;> decide

theorem PageSize.bytes_le (ps : PageSize) : ps.bytes ≤ 65536 := by
  cases ps <;> decide

end Pagebox
