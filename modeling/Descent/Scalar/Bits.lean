import Descent.Scalar

/-!
# Scalars as bit patterns

* `Binary S`: scalars of a fixed binary format, read and written as their bit patterns.
* `Hex.digits`, `Hex.toNat?`: a number as lower-case hexadecimal digits, the most significant
  first, and back.
* `Binary.hex`, `Binary.ofHex?`: a scalar as the hexadecimal digits of its pattern. Every NaN is
  written `nan`, whatever its pattern.
-/

namespace Descent

namespace Hex

/-- The digit of a value below sixteen. -/
def digit (n : Nat) : Char :=
  if n < 10 then Char.ofNat ('0'.toNat + n) else Char.ofNat ('a'.toNat + (n - 10))

/-- The value of a digit; capitals are refused. -/
def value? (c : Char) : Option Nat :=
  if '0' ≤ c ∧ c ≤ '9' then some (c.toNat - '0'.toNat)
  else if 'a' ≤ c ∧ c ≤ 'f' then some (c.toNat - 'a'.toNat + 10)
  else none

/-- The lowest `width` digits of `n`, the most significant first. -/
def digits : Nat → Nat → List Char
  | 0, _ => []
  | width + 1, n => digits width (n / 16) ++ [digit (n % 16)]

/-- The number that a list of digits spells; a list without digits spells zero. -/
def toNat? (cs : List Char) : Option Nat :=
  cs.foldlM (fun n c => (value? c).map (16 * n + ·)) 0

end Hex

/-- Scalars stored in a binary format whose patterns have `width` hexadecimal digits. -/
class Binary (S : Type) extends Scalar S where
  width : Nat
  toBits : S → Nat
  ofBits : Nat → S
  ofInt : Int → S

instance : Binary Float where
  width := 16
  toBits x := x.toBits.toNat
  ofBits n := Float.ofBits n.toUInt64
  ofInt := Float.ofInt

instance : Binary Float32 where
  width := 8
  toBits x := x.toBits.toNat
  ofBits n := Float32.ofBits n.toUInt32
  ofInt := Float32.ofInt

namespace Binary

variable {S : Type} [Binary S]

/-- A scalar that is not equal to itself. -/
def isNaN (x : S) : Bool := !(x == x)

/-- The digits of the bit pattern, or `nan`. -/
def hex (x : S) : String :=
  if isNaN x then "nan" else String.ofList (Hex.digits (width S) (toBits x))

/-- Reads `nan` or a bit pattern of exactly `width` digits. -/
def ofHex? (s : String) : Option S :=
  if s = "nan" then some (0 / 0)
  else if s.length = width S then (Hex.toNat? s.toList).map ofBits
  else none

end Binary

end Descent
