import Mathlib.Data.List.Basic

/-! # Bytes of a C string

A C string is read here as the list of its bytes without the terminating NUL.
-/

namespace CString

/-- The bytes of an ASCII literal. -/
def ascii (text : String) : List UInt8 := text.toList.map fun char => UInt8.ofNat char.toNat

end CString
