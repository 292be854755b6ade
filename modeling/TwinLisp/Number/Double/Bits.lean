import TwinLisp.Number.Power
/-!
Double-precision numbers as exact magnitudes. A finite double is a sign and `m · 2^q`.

* `decode`: the pair `(m, q)` of a finite double.
* `roundedBits`: the bits of the double nearest to a positive fraction, ties to the even mantissa.
* `remainder`: the exact remainder of a division that truncates, with the sign of the dividend.
-/

namespace TwinLisp.Double

/-- Whether the sign bit is set, also of zero. -/
def isNegative (d : Float) : Bool := d.toBits.toNat / twoTo 63 % 2 == 1

/-- The mantissa and exponent of a finite double: its magnitude is `m · 2^q`. -/
def decode (d : Float) : Nat × Int :=
  let bits := d.toBits.toNat
  let e : Nat := bits / twoTo 52 % 2048
  let f : Nat := bits % twoTo 52
  if e = 0 then (f, -1074) else (f + twoTo 52, (e : Int) - 1075)

/-- `m · 2^q` as a fraction. -/
def fractionOf (m : Nat) (q : Int) : Nat × Nat :=
  if 0 ≤ q then (m * twoTo q.toNat, 1) else (m, twoTo (-q).toNat)

/-- The quotient rounded to the nearest natural number, a tie to the even neighbour. -/
def divideToEven (num den : Nat) : Nat :=
  let q := num / den
  let twice := 2 * (num % den)
  if twice > den || (twice == den && q % 2 == 1) then q + 1 else q

/-- The quotient of `num` and `den` in units of `2^e`. -/
def inUnits (num den : Nat) (e : Int) : Nat × Nat :=
  if 0 ≤ e then (num, den * twoTo e.toNat) else (num * twoTo (-e).toNat, den)

/-- The bits, the sign apart, of the double nearest to `num / den`. -/
def roundedBits (num den : Nat) : Nat :=
  if num = 0 then 0
  else
    let e₀ : Int := max (-1074) ((num.log2 : Int) - (den.log2 : Int) - 53)
    let (n₀, d₀) := inUnits num den e₀
    let e := if n₀ / d₀ ≥ twoTo 53 then e₀ + 1 else e₀
    let (n, d) := inUnits num den e
    let m := divideToEven n d
    let bits := if m < twoTo 52 then m else (e + 1075).toNat * twoTo 52 + (m - twoTo 52)
    min bits (2047 * twoTo 52)

/-- The double nearest to a fraction, with a sign. -/
def ofFraction (negative : Bool) (num den : Nat) : Float :=
  Float.ofBits (UInt64.ofNat (roundedBits num den + if negative then twoTo 63 else 0))

def ofInt (n : Int) : Float := ofFraction (n < 0) n.natAbs 1

def nan : Float := 0.0 / 0.0

def infinity : Float := 1.0 / 0.0

/-- The remainder of `x` by `y`, with the sign of `x`. -/
def remainder (x y : Float) : Float :=
  if x.isNaN || y.isNaN || x.isInf || y == 0.0 then nan
  else if y.isInf || x == 0.0 then x
  else
    let (mx, ex) := decode x
    let (my, ey) := decode y
    let e := min ex ey
    let r := (mx * twoTo (ex - e).toNat) % (my * twoTo (ey - e).toNat)
    let (num, den) := fractionOf r e
    ofFraction (isNegative x) num den

/-- The nearest integral double toward zero. -/
def truncate (d : Float) : Float := if d < 0.0 then d.ceil else d.floor

/-- Whether a finite double is an integer. -/
def isIntegral (d : Float) : Bool := d.isFinite && d.floor == d

end TwinLisp.Double
