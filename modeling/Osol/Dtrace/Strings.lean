import Mathlib

/-!
# Strings in scratch space

`DIF_SUBR_STRJOIN` and `DIF_SUBR_LLTOSTR` of `dtrace_dif_subr`. A string that fills the space to
its last byte is written and then neither returned nor refused, and the negation of the least
integer is negative.
-/

namespace Osol.Dtrace

open Function List BitVec Nat

section

variable {size : ℕ} {s : CString} {i : ℕ}

end

end Osol.Dtrace
