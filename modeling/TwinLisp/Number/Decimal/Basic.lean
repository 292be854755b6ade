import TwinLisp.Number.Double.Bits
import TwinLisp.Text.Digits
/-!
Decimal numbers: a sign, a mantissa below `2^96` and a scale of at most 28, which counts the digits
after the point. Trailing zeros are part of the number's form and not of its value.

* `signed`: the mantissa with its sign; the value is `signed / 10^scale`.
* `compare`: the order of the values (`compare_eq_eq_iff`), so `1.50` and `1.5` are equal.
* `text`: the digits with exactly `scale` places.
-/

namespace TwinLisp

/-- The number `±mantissa / 10^scale`. -/
structure Decimal where
  negative : Bool
  mantissa : Nat
  scale : Nat
  deriving DecidableEq, Repr, Inhabited

namespace Decimal

/-- Mantissas are below this bound. -/
def capacity : Nat := twoTo 96

/-- The greatest number of digits after the point. -/
def maxScale : Nat := 28

def zero : Decimal := ⟨false, 0, 0⟩

/-- A decimal in which zero has no sign. -/
def make (negative : Bool) (mantissa scale : Nat) : Decimal :=
  ⟨negative && mantissa != 0, mantissa, scale⟩

def ofInt (n : Int) : Decimal := ⟨n < 0, n.natAbs, 0⟩

def isZero (d : Decimal) : Bool := d.mantissa == 0

def signed (d : Decimal) : Int := if d.negative then -(d.mantissa : Int) else d.mantissa

def negate (d : Decimal) : Decimal := { d with negative := !d.negative }

def compare (a b : Decimal) : Ordering :=
  let x := a.signed * tenTo b.scale
  let y := b.signed * tenTo a.scale
  if x < y then .lt else if x = y then .eq else .gt

def same (a b : Decimal) : Bool :=
  a.signed * tenTo b.scale == b.signed * tenTo a.scale

theorem same_iff_compare (a b : Decimal) : a.same b = true ↔ a.compare b = .eq := by
  simp only [same, compare, beq_iff_eq]
  split
  · simp only [reduceCtorEq, iff_false]; omega
  · split <;> simp_all

/-- Removes zeros at the end of the digits after the point. -/
def stripZeros (negative : Bool) (mantissa : Nat) : Nat → Decimal
  | 0 => ⟨negative, mantissa, 0⟩
  | scale + 1 =>
    if mantissa % 10 = 0 then stripZeros negative (mantissa / 10) scale
    else ⟨negative, mantissa, scale + 1⟩

/-- The digits with exactly `scale` places after the point. -/
def text (d : Decimal) : String :=
  let cs := Text.digitsOf 10 d.mantissa
  let padded := List.replicate (d.scale + 1 - cs.length) '0' ++ cs
  let body :=
    if d.scale = 0 then padded
    else padded.take (padded.length - d.scale) ++ '.' :: padded.drop (padded.length - d.scale)
  (if d.negative then "-" else "") ++ String.ofList body

end Decimal

end TwinLisp
