import HookKernel.Lib.Memory
import HookKernel.Spec.Datafile

/-!
# Symbol lookup (`syscall_hook.c`, lines 60 to 92)

`get_system_symbol_addr` reads `/proc/kallsyms` byte by byte into `line` and starts
again at its front behind every newline; `line` is neither initialised nor cleared.
The end of the text is where `vfs_read` no longer returns 1. `hex2ptr` is not in the
repository: it is a parameter, applied to a C string.
-/

namespace HookKernel

open Lib

/-- `line[LINE_SIZE]`. -/
abbrev LineBuff := { l : List UInt8 // l.length = 255 }

/-- `line[i] = b`. -/
def LineBuff.put (line : LineBuff) (i : ℕ) (b : UInt8) : LineBuff :=
  ⟨line.1.set i b, by rw [List.length_set]; exact line.2⟩

@[simp] theorem LineBuff.put_val (line : LineBuff) (i : ℕ) (b : UInt8) : (line.put i b).1 = line.1.set i b := rfl

/-- `strncmp`; `none` if it reads outside. -/
def strncmp : ℕ → List UInt8 → List UInt8 → Option ℤ
  | 0, _, _ => some 0
  | n + 1, a :: cs, b :: ct =>
    if a ≠ b then some (if a < b then -1 else 1)
    else if a = 0 then some 0
    else strncmp n cs ct
  | _ + 1, _, _ => none

/-- The loop of `get_system_symbol_addr`, with `text` left to read. -/
def scanSymbols (hex2ptr : List UInt8 → Addr) (symbol : CStr) : LineBuff → ℕ → List UInt8 → Option Addr
  | _, _, [] => some 0
  | line, i, b :: text =>
    if i < 255 then
      if b = 10 then
        (strncmp symbol.1.length ((line.put i b).1.drop 16) (symbol.1 ++ [0])).bind fun r =>
          if r = 0 then some (hex2ptr (cstr (· == 0) ((line.put i b).put 16 0).1))
          else scanSymbols hex2ptr symbol (line.put i b) 0 text
      else scanSymbols hex2ptr symbol (line.put i b) (i + 1) text
    else some 0

/-- `get_system_symbol_addr`, with the text that `filp_open` opens if it succeeds. -/
def getSystemSymbolAddr (hex2ptr : List UInt8 → Addr) (line : LineBuff) (kallsyms : Option (List UInt8))
    (symbol : CStr) : Option Addr :=
  match kallsyms with
  | none => some 0
  | some text => scanSymbols hex2ptr symbol line 0 text

/-- A hexadecimal digit as `/proc/kallsyms` has it: its letters are lower-case ones. -/
def IsHexDigit (b : UInt8) : Prop := 48 ≤ b ∧ b ≤ 57 ∨ 97 ≤ b ∧ b ≤ 102

instance (b : UInt8) : Decidable (IsHexDigit b) := inferInstanceAs (Decidable (_ ∨ _))

/-- A line of `/proc/kallsyms`, without its newline. -/
structure SymLine where
  addr : List UInt8
  rest : List UInt8
  addr_length : addr.length = 16
  addr_hex : ∀ b ∈ addr, IsHexDigit b
  rest_length : rest.length ≤ 238
  rest_line : 10 ∉ rest

/-- The text of some lines. -/
def kallsymsText (lines : List SymLine) : List UInt8 := lines.flatMap fun l => l.addr ++ l.rest ++ [10]

/-- A pattern that is searched for, without the newline at its end. -/
structure SymPattern where
  name : List UInt8
  no_nul : 0 ∉ name
  no_newline : 10 ∉ name

/-- The argument of `get_system_symbol_addr`. -/
def SymPattern.symbol (p : SymPattern) : CStr :=
  ⟨p.name ++ [10], by rw [List.mem_append]; exact fun h => h.elim p.no_nul (by decide)⟩

/-- The specification: the address of the first line that the pattern is the rest of. -/
def lookupSpec (hex2ptr : List UInt8 → Addr) (lines : List SymLine) (p : SymPattern) : Addr :=
  match lines.find? fun l => l.rest ++ [10] = p.symbol.1 with
  | some l => hex2ptr l.addr
  | none => 0

end HookKernel
