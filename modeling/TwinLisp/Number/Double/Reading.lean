import TwinLisp.Number.Double.Bits
import TwinLisp.Text.Digits
/-!
Doubles written in decimal: digits, an optional point with digits on one side at least, an optional
exponent. The result is the nearest double, ties to even; numbers too large become infinite.
-/

namespace TwinLisp.Double

/-- The parts of a decimal literal: the digits before and after the point, and the exponent. -/
structure Literal where
  whole : List Char
  fraction : List Char
  exponent : Int

/-- Splits a literal without sign; `none` if it is malformed. -/
def Literal.ofChars? (cs : List Char) : Option Literal :=
  let isDigit := fun c : Char => c.isDigit
  let whole := cs.takeWhile isDigit
  let (fraction, rest) :=
    match cs.dropWhile isDigit with
    | '.' :: r => (r.takeWhile isDigit, r.dropWhile isDigit)
    | r => ([], r)
  if whole.isEmpty && fraction.isEmpty then none
  else
    match rest with
    | [] => some ⟨whole, fraction, 0⟩
    | c :: r =>
      if c = 'e' || c = 'E' then (Text.intOfDigits? 10 r).map fun e => ⟨whole, fraction, e⟩
      else none

/-- The nearest double. Exponents far outside the range are decided without computing the power. -/
def Literal.value (negative : Bool) (l : Literal) : Float :=
  let digits := l.whole ++ l.fraction
  let m := (Text.natOfDigitsFrom? 10 0 digits).getD 0
  let e := l.exponent - l.fraction.length
  let magnitude := e + digits.length
  if m = 0 || magnitude < -400 then ofFraction negative 0 1
  else if e > 400 then ofFraction negative (twoTo 1100) 1
  else if 0 ≤ e then ofFraction negative (m * tenTo e.toNat) 1
  else ofFraction negative m (tenTo (-e).toNat)

/-- Reads a double with an optional sign. -/
def ofChars? (cs : List Char) : Option Float :=
  match cs with
  | '-' :: r => (Literal.ofChars? r).map (Literal.value true)
  | '+' :: r => (Literal.ofChars? r).map (Literal.value false)
  | _ => (Literal.ofChars? cs).map (Literal.value false)

end TwinLisp.Double
