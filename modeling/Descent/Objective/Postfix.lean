import Descent.Objective.Formula

/-!
# Formulas in postfix notation

A formula is written as tokens with spaces between them, every operation behind its operands:
`x0 3 - neg` is `-(x₀ - 3)`.

* `Token S`: a token is an operand, or an operation on one, two or three operands.
* `Token.ofString?`: its spelling.
* `Formula.ofTokens?`: the formula of a list of tokens, where every operation has its operands and
  exactly one formula is left.
* `Formula.parse?`: a written formula.
-/

namespace Descent

/-- A word of the postfix notation. -/
inductive Token (S : Type) where
  | operand (a : Formula S)
  | unary (op : UnaryOp)
  | binary (op : BinaryOp)
  | select

variable {S : Type}

namespace Token

/-- The index behind the letter of an operand. -/
def index? (digits : List Char) : Option Nat :=
  (String.ofList digits).toNat?

variable [Binary S]

/-- The operands with a letter in front: a bit pattern behind `#`, a coordinate of the point behind
`x` and of the buffer behind `g`, a named formula behind `t`. -/
def indexed? : List Char → Option (Formula S)
  | '#' :: digits => (Binary.ofHex? (String.ofList digits)).map .constant
  | 'x' :: digits => (index? digits).map .coordinate
  | 'g' :: digits => (index? digits).map .buffered
  | 't' :: digits => (index? digits).map .named
  | _ => none

/-- The token that a word spells. A word that is nothing else is a decimal integer. -/
def ofString? (word : String) : Option (Token S) :=
  match word with
  | "+" => some (.binary .add)
  | "-" => some (.binary .sub)
  | "*" => some (.binary .mul)
  | "/" => some (.binary .div)
  | "<" => some (.binary .less)
  | "neg" => some (.unary .neg)
  | "abs" => some (.unary .abs)
  | "sqrt" => some (.unary .sqrt)
  | "sel" => some .select
  | "n" => some (.operand .callCount)
  | "f" => some (.operand .objectiveValue)
  | _ =>
    match indexed? word.toList with
    | some a => some (.operand a)
    | none => word.toInt?.map fun n => .operand (.constant (Binary.ofInt n))

end Token

namespace Formula

/-- Puts a token on the stack of the formulas read so far, the last one on top. -/
def push? : List (Formula S) → Token S → Option (List (Formula S))
  | stack, .operand a => some (a :: stack)
  | a :: stack, .unary op => some (.unary op a :: stack)
  | b :: a :: stack, .binary op => some (.binary op a b :: stack)
  | b :: a :: c :: stack, .select => some (.select c a b :: stack)
  | _, _ => none

/-- The formula that a list of tokens spells. -/
def ofTokens? (tokens : List (Token S)) : Option (Formula S) :=
  match tokens.foldlM push? [] with
  | some [a] => some a
  | _ => none

/-- The formula that a text spells. -/
def parse? [Binary S] (text : String) : Option (Formula S) := do
  let words := (text.splitOn " ").filter (· ≠ "")
  ofTokens? (← words.mapM Token.ofString?)

end Formula

end Descent
