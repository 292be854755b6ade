import TwinLisp.Number.Decimal.Reading
import TwinLisp.Number.Double.Reading
import TwinLisp.Number.Word
import TwinLisp.Token.Basic
/-!
Numeric literals. The form is decided in this order: a final `M` makes a decimal, a final `N` an
integer; a slash a ratio; a leading `0x` a hexadecimal integer; a point or an exponent a double; all
else is a decimal integer. Integers that are no words are refused.
-/

namespace TwinLisp.Token

/-- A decimal integer that is a word. -/
def word? (base : Nat) (cs : List Char) : Option Int64 :=
  (Text.intOfDigits? base cs).bind Word.ofInt?

/-- The text without a given last character. -/
def dropLast? (c : Char) (cs : List Char) : Option (List Char) :=
  if cs.getLast? = some c then some cs.dropLast else none

/-- The text behind the mark of a hexadecimal literal. -/
def hexDigits? : List Char → Option (List Char)
  | '0' :: 'x' :: rest | '0' :: 'X' :: rest => some rest
  | _ => none

/-- The token of a ratio from the texts of its two parts. -/
def ratio? (num den : List Char) : Option TokenKind :=
  (word? 10 num).bind fun n =>
    (word? 10 den).bind fun d => if d = 0 then none else some (.ratio n d)

/-- The token of a literal without sign; `negative` tells what the sign was. -/
def unsigned? (negative : Bool) (body : List Char) : Option TokenKind :=
  let signed := fun cs : List Char => if negative then '-' :: cs else cs
  match dropLast? 'M' body with
  | some digits => (Decimal.ofText? (signed digits)).map .decimal
  | none =>
  match dropLast? 'N' body with
  | some digits => (word? 10 (signed digits)).map .int
  | none =>
  if body.contains '/' then
    ratio? (signed (body.takeWhile (· != '/'))) ((body.dropWhile (· != '/')).drop 1)
  else
  match hexDigits? body with
  | some digits => (word? 16 digits).map fun n => .int (if negative then -n else n)
  | none =>
  if body.any fun c => c == '.' || c == 'e' || c == 'E' then
    (Double.ofChars? (signed body)).map .double
  else (word? 10 (signed body)).map .int

/-- The token of a numeric literal. -/
def number? (text : List Char) : Option TokenKind :=
  match text with
  | '-' :: body => unsigned? true body
  | '+' :: body => unsigned? false body
  | _ => unsigned? false text

end TwinLisp.Token
