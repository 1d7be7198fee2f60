import Cs370.MsDos.Programs

/-!
# Which entries are listed and extracted

`print_file_data` and `extract_files` choose the same entries of a directory that has a free one,
as long as every call of `extract_single_file` returns. In a full directory `extract_files` goes
on behind the table: it asks whether there are entries at all where `print_file_data` asks
whether there is another one.
-/

namespace Cs370.MsDos

section
variable (host : Host) {fat : Fat12} (path outDir : List UInt8)

end

/-! ## Files without clusters -/

section
variable (free : Nat)

section
variable {free} {k : Nat} (hk : k < 257)
include hk

end

variable {free} (hfree : free < 257)
include hfree

end

end Cs370.MsDos
