import TwinLisp.Number.Double.Bits
import TwinLisp.Text.Digits
/-!
The shortest decimal that reads back as a given double.

A double stands for all reals that round to it: an interval around `m · 2^q` whose ends belong to
it when `m` is even. `shortest` tries the next power of ten, then one significant digit, then two,
and so on; on each decimal grid only the two neighbours of the value can lie in the interval, and of
two that do the nearer wins, the upper one on a tie.

* `text`: the digits without an exponent, no point on integers.
* `display`: what the language prints, with a point on integers below ten to the sixteenth.
-/

namespace TwinLisp.Double

/-- The reals that round to a double, as numerators over `den`. -/
structure Interval where
  value : Nat
  low : Nat
  high : Nat
  den : Nat
  closed : Bool

/-- The interval of `m · 2^q`; below a power of two the lower neighbour is half as far. -/
def intervalOf (m : Nat) (q : Int) : Interval :=
  let (unit, den) := fractionOf 1 (q - 2)
  let below := if m = twoTo 52 && q > -1074 then 1 else 2
  ⟨4 * m * unit, (4 * m - below) * unit, (4 * m + 2) * unit, den, m % 2 == 0⟩

/-- Whether `num / i.den` lies in the interval. -/
def Interval.contains (i : Interval) (num : Nat) : Bool :=
  if i.closed then i.low ≤ num && num ≤ i.high else i.low < num && num < i.high

/-- The number `k` with `10^(k-1) ≤ num / den < 10^k`. -/
def decimalMagnitude (num den : Nat) : Int :=
  if num ≥ den then (Text.digitsOf 10 (num / den)).length
  else 1 - ((Text.digitsOf 10 ((den - 1) / num)).length : Int)

/-- A point `digits · 10^exponent` of the grid `10^p` next to the value that reads back. -/
def onGrid (i : Interval) (p : Int) : Option Nat :=
  let (scale, unit) := fractionTen p
  let v := i.value * scale
  let j : Interval := ⟨v, i.low * scale, i.high * scale, i.den, i.closed⟩
  let step := i.den * unit
  let below := v / step
  let above := below + 1
  match j.contains (below * step), j.contains (above * step) with
  | true, true => if v - below * step < above * step - v then some below else some above
  | true, false => some below
  | false, true => some above
  | false, false => none
where
  /-- Factors that clear the denominators of `10^p`. -/
  fractionTen (p : Int) : Nat × Nat :=
    if 0 ≤ p then (1, tenTo p.toNat) else (tenTo (-p).toNat, 1)

/-- Tries the grids from `p` downwards. -/
def searchGrids (i : Interval) : Nat → Int → Nat × Int
  | 0, p => (i.value / i.den, p)
  | fuel + 1, p =>
    match onGrid i p with
    | some d => (d, p)
    | none => searchGrids i fuel (p - 1)

/-- The fewest digits `d` and the exponent `p` for which `d · 10^p` reads back as the magnitude of
a finite nonzero double. -/
def shortest (d : Float) : Nat × Int :=
  let (m, q) := decode d
  let i := intervalOf m q
  searchGrids i 19 (decimalMagnitude i.value i.den)

/-- `digits · 10^p` written without an exponent. -/
def positional (digits : Nat) (p : Int) : List Char :=
  let cs := Text.digitsOf 10 digits
  if 0 ≤ p then cs ++ List.replicate p.toNat '0'
  else
    let places := (-p).toNat
    let padded := List.replicate (places + 1 - cs.length) '0' ++ cs
    padded.take (padded.length - places) ++ '.' :: padded.drop (padded.length - places)

/-- Shortest digits without an exponent; integers have no point. -/
def text (d : Float) : String :=
  if d.isNaN then "NaN"
  else
    let sign := if isNegative d then "-" else ""
    if d.isInf then sign ++ "inf"
    else if d == 0.0 then sign ++ "0"
    else
      let (digits, p) := shortest d
      sign ++ String.ofList (positional digits p)

/-- The printed form: special values are marked, and integers below `10^16` show one place. -/
def display (d : Float) : String :=
  if d.isNaN then "##NaN"
  else if d.isInf then (if isNegative d then "##-Inf" else "##Inf")
  else if isIntegral d && d.abs < 1e16 then text d ++ ".0"
  else text d

end TwinLisp.Double
