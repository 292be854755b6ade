import TwinLisp.Number.Decimal.Basic
/-!
Arithmetic on decimals. Every operation computes the exact result and then `fit`s it: as few
digits as possible are dropped, rounding half to even, so that the scale is at most 28 and the
mantissa is below its bound. A result that is too large even without places has no decimal.

* `add?`, `sub?`, `mul?`: sums and products, rounded at most once.
* `div?`: the quotient, to as many places as it needs or as fit.
-/

namespace TwinLisp.Decimal

/-- Drops `drop` digits, and more while the mantissa is too large; `none` once no places remain. -/
def fitFrom (negative : Bool) (digits scale : Nat) : Nat → Nat → Option Decimal
  | 0, _ => none
  | fuel + 1, drop =>
    if drop > scale then none
    else
      let m := Double.divideToEven digits (tenTo drop)
      if m < capacity then some (make negative m (scale - drop))
      else fitFrom negative digits scale fuel (drop + 1)

/-- The decimal nearest to `digits / 10^scale` that keeps the most places. -/
def fit (negative : Bool) (digits scale : Nat) : Option Decimal :=
  fitFrom negative digits scale (scale + 2) (scale - maxScale)

/-- Adds signed mantissas brought to the larger of the two scales. Adding zero keeps the form of the
other number, whatever the scale of the zero. -/
def add? (a b : Decimal) : Option Decimal :=
  if a.isZero then some b
  else if b.isZero then some a
  else
    let scale := max a.scale b.scale
    let sum := a.signed * tenTo (scale - a.scale) + b.signed * tenTo (scale - b.scale)
    fit (sum < 0) sum.natAbs scale

/-- The difference. A zero that is subtracted from a zero keeps its form. -/
def sub? (a b : Decimal) : Option Decimal :=
  if a.isZero && b.isZero then some b else add? a b.negate

/-- The product. Zero has no places, and neither has a product of two short mantissas that is
too small for any place. -/
def mul? (a b : Decimal) : Option Decimal :=
  let scale := a.scale + b.scale
  if a.mantissa = 0 || b.mantissa = 0 then some zero
  else if a.mantissa < twoTo 32 && b.mantissa < twoTo 32 && scale > 47 then some zero
  else fit (a.negative != b.negative) (a.mantissa * b.mantissa) scale

/-! ## Quotients -/

/-- The greatest number of further places, at most `limit`, that leaves the digits below the
capacity. -/
def growth (digits : Nat) : (limit : Nat) → Nat
  | 0 => 0
  | limit + 1 =>
    if digits * tenTo (limit + 1) < capacity then limit + 1 else growth digits limit

/-- The quotient with one place less, if there is one. -/
def oneLess (num den : Nat) (places : Int) : Option (Nat × Nat) :=
  if places < 1 then none else some (Double.divideToEven num (10 * den), (places - 1).toNat)

/-- Digits of a quotient and how many of them are places, given those found so far and the
remainder. Places are added in groups of up to nine until the quotient is exact, or until no more
fit; then it is rounded. -/
def quotientFrom (den : Nat) : (groups digits remainder : Nat) → (places : Int) →
    Option (Nat × Nat)
  | 0, _, _, _ => none
  | groups + 1, digits, remainder, places =>
    if remainder = 0 then
      if 0 ≤ places then some (digits, places.toNat)
      else
        let more := min 9 (-places).toNat
        if digits * tenTo more < capacity then
          quotientFrom den groups (digits * tenTo more) 0 (places + more)
        else none
    else
      let more := growth digits (min 9 (maxScale - places).toNat)
      if more = 0 then
        let rounded := Double.divideToEven (digits * den + remainder) den
        if places < 0 then none
        else if rounded < capacity then some (rounded, places.toNat)
        else oneLess (digits * den + remainder) den places
      else if more < 9 ∧ places + more < 0 then none
      else
        let scaled := (digits * den + remainder) * tenTo more
        if scaled / den < capacity then
          quotientFrom den groups (scaled / den) (scaled % den) (places + more)
        else oneLess scaled den (places + more)

/-- Removes eight zeros at a time from the end, as long as the digits are a multiple of `2^32`. -/
def dropEights : (rounds digits places : Nat) → Nat × Nat
  | 0, digits, places => (digits, places)
  | rounds + 1, digits, places =>
    if digits % twoTo 32 = 0 ∧ digits % tenTo 8 = 0 ∧ 8 ≤ places then
      dropEights rounds (digits / tenTo 8) (places - 8)
    else (digits, places)

/-- Removes some zeros from the end if there are so many. -/
def dropGroup (count : Nat) (d : Nat × Nat) : Nat × Nat :=
  if d.1 % tenTo count = 0 ∧ count ≤ d.2 then (d.1 / tenTo count, d.2 - count) else d

/-- The form of an inexact division's digits: zeros at the end go in groups of eight, four, two and
one, so that a few may stay. -/
def tidy (d : Nat × Nat) : Nat × Nat :=
  dropGroup 1 (dropGroup 2 (dropGroup 4 (dropEights 4 d.1 d.2)))

/-- The quotient of two decimals, the second not zero. -/
def div? (a b : Decimal) : Option Decimal :=
  if a.mantissa = 0 || b.mantissa = 0 then some zero
  else
    let remainder := a.mantissa % b.mantissa
    let found := quotientFrom b.mantissa 64 (a.mantissa / b.mantissa) remainder
      ((a.scale : Int) - b.scale)
    found.map fun d =>
      let (digits, places) := if remainder = 0 then d else tidy d
      make (a.negative != b.negative) digits places

end TwinLisp.Decimal
