import Mathlib.Algebra.BigOperators.Group.List.Basic
import Pagebox.Wal.PagePatch

/-!
# The patch between two pages

`encode_page_patch_payload` looks for the runs of bytes in which two pages differ and
encodes them as a patch.  Its ranges are ordered, lie apart and cover every
difference, so the only reason to refuse them, apart from there being none, is their
encoded length.
-/

namespace Pagebox.Wal

open Pagebox.Base

variable {ps : PageSize} (before after : Page ps)

section

variable {before after}

end

end Pagebox.Wal
