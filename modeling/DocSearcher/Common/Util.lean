/-
Byte strings, and `common/util.hpp`.

A `std::string` is a list of bytes, with no encoding attached: the program never
decodes one.  The string operations that can fail are modelled with their failure:
`substr` past the end throws, writing `s[i]` past the end and a `size_t`
subtraction below zero are faults, so that "never out of range" is a statement
about these definitions and not a convention.

Logging to the standard streams is left out, but for the console programs, whose
output is what they are for.
-/
import DocSearcher.Lib.Find
import DocSearcher.Lib.Lines
import Mathlib.Algebra.Group.Int.Defs
import Mathlib.Algebra.Group.Nat.Defs

namespace DocSearcher

/-- `std::string`. -/
abbrev Str := List UInt8

/-- What `std::ifstream` opens under a path: the content, or nothing. -/
abbrev FileSystem := Str → Option Str

/-- The bytes of an ASCII literal. -/
def bytes (cs : List Char) : Str := cs.map fun c => UInt8.ofNat c.toNat

/-- `'\n'`. -/
def newline : UInt8 := 10

/-- `"\3"`, the byte between the fields of a record. -/
def fieldSep : UInt8 := 3

/-- `'.'`. -/
def dot : UInt8 := 46

/-! ### Operations that can go wrong -/

/-- How an operation can leave the defined behaviour of the language, or end the program. -/
inductive Fault
  /-- `std::out_of_range`, or an index past the end of a string. -/
  | outOfRange
  /-- A `size_t` subtraction whose result is negative. -/
  | wrapped
  /-- A dereference of `nullptr`. -/
  | nullDeref
  /-- `boost::filesystem::filesystem_error`, which nothing catches. -/
  | filesystemError
  deriving Repr, DecidableEq

/-- `s.substr(pos, n)`. -/
def substr (s : Str) (pos n : Nat) : Except Fault Str :=
  if pos ≤ s.length then .ok ((s.drop pos).take n) else .error .outOfRange

/-- `s.substr(pos)`. -/
def substrFrom (s : Str) (pos : Nat) : Except Fault Str :=
  if pos ≤ s.length then .ok (s.drop pos) else .error .outOfRange

/-- `s[i] = c`. -/
def setAt (s : Str) (i : Nat) (c : UInt8) : Except Fault Str :=
  if i < s.length then .ok (s.set i c) else .error .outOfRange

/-- `a - b` on `size_t`. -/
def sizeSub (a b : Nat) : Except Fault Nat :=
  if b ≤ a then .ok (a - b) else .error .wrapped

/-- The value a 32-bit `int` holds after an operation with mathematical result `z`. -/
@[irreducible] def int32 (z : Int) : Int := z.bmod (2 ^ 32)

/-! ### `boost::to_lower` -/

def toLowerByte (c : UInt8) : UInt8 := if 65 ≤ c ∧ c ≤ 90 then c + 32 else c

/-- `boost::to_lower` in the default C locale: ASCII letters only, byte by byte. -/
def toLower (s : Str) : Str := s.map toLowerByte

/-! ### `common::Util` -/

namespace Util

/-- `Util::Read`: append the file to `output`, line by line. -/
def read (fs : FileSystem) (inputPath : Str) (output : Str) : Bool × Str :=
  match fs inputPath with
  | none => (false, output)
  | some file =>
      (true, Lib.whileGetline newline (fun out line => out ++ (line ++ [newline])) output file)

/-- `Util::Split`: cut at every byte of `delimiter`, keeping empty pieces. -/
def split (input delimiter : Str) : List Str :=
  input.splitOnP fun c => delimiter.contains c

end Util

end DocSearcher
