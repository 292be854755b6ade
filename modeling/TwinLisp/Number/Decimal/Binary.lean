import TwinLisp.Number.Decimal.Basic
/-!
Decimals and doubles. `ofDouble?` keeps about sixteen digits of a double: it turns the power of two
into powers of five and ten, dropping low digits when the mantissa overflows, then rounds away what
lies beyond fifty-two bits. `toDouble` adds the whole and the fractional part as doubles and rounds
the sum to the decimal's own scale.
-/

namespace TwinLisp.Decimal

/-- A mantissa and a power of ten on the way from a double to a decimal. -/
structure Scaled where
  mantissa : Nat
  exponent : Int

/-- Multiplies by `5^n`; an even mantissa is halved instead, and so is one that would overflow. -/
def Scaled.timesFive : Nat → Scaled → Scaled
  | 0, s => s
  | n + 1, s =>
    if s.mantissa % 2 = 0 then timesFive n ⟨s.mantissa / 2, s.exponent + 1⟩
    else if s.mantissa * 5 < capacity then timesFive n ⟨s.mantissa * 5, s.exponent⟩
    else timesFive n ⟨s.mantissa / 2, s.exponent + 1⟩

/-- Divides by `5^n`: twice the mantissa over ten, or a plain division if that would overflow. -/
def Scaled.byFive : Nat → Scaled → Scaled
  | 0, s => s
  | n + 1, s =>
    if s.mantissa * 2 < capacity then byFive n ⟨s.mantissa * 2, s.exponent - 1⟩
    else byFive n ⟨s.mantissa / 5, s.exponent⟩

/-- Drops the last digit, rounding half up. -/
def Scaled.drop (s : Scaled) : Scaled :=
  ⟨s.mantissa / 10 + (if s.mantissa % 10 ≥ 5 then 1 else 0), s.exponent + 1⟩

/-- Drops digits until the exponent is at least `-28`; a mantissa that vanishes is plain zero. -/
def Scaled.raiseExponent : Nat → Scaled → Scaled
  | 0, s => s
  | n + 1, s =>
    if s.exponent ≥ -(maxScale : Int) then s
    else if s.mantissa / 10 = 0 then ⟨0, 0⟩
    else raiseExponent n s.drop

/-- Drops digits until the mantissa has at most fifty-two bits or no places are left. -/
def Scaled.shorten : Nat → Scaled → Scaled
  | 0, s => s
  | n + 1, s => if s.exponent < 0 && s.mantissa ≥ twoTo 52 then shorten n s.drop else s

/-- The decimal of a finite double, if its magnitude fits. -/
def ofDouble? (d : Float) : Option Decimal :=
  if d.isNaN || d.isInf then none
  else if d == 0.0 then some ⟨Double.isNegative d, 0, 0⟩
  else
    let (m, q) := Double.decode d
    let s : Scaled := if q < 0 then Scaled.timesFive (-q).toNat ⟨m, q⟩
      else Scaled.byFive q.toNat ⟨m, q⟩
    let whole : Option Scaled :=
      if s.exponent > 0 then
        let raised := s.mantissa * tenTo s.exponent.toNat
        if raised < capacity then some ⟨raised, 0⟩ else none
      else some s
    whole.map fun s =>
      let s := (s.raiseExponent (-s.exponent).toNat).shorten 30
      stripZeros (Double.isNegative d) s.mantissa (-s.exponent).toNat

/-- `base^n` by repeated squaring. -/
def doublePower : Nat → Float → Float → Nat → Float
  | 0, _, acc, _ => acc
  | fuel + 1, base, acc, n =>
    let acc := if n % 2 = 1 then acc * base else acc
    if n / 2 = 0 then acc else doublePower fuel (base * base) acc (n / 2)

def toDouble (d : Decimal) : Float :=
  if d.scale = 0 then Double.ofInt d.signed
  else
    let unit := tenTo d.scale
    let whole := Double.ofInt (d.mantissa / unit : Nat)
    let fraction := Double.ofInt (d.mantissa % unit : Nat) / Double.ofInt unit
    let magnitude :=
      if fraction == 0.0 then whole
      else
        let power := doublePower 8 10.0 1.0 d.scale
        ((whole + fraction) * power).round / power
    if d.negative then -magnitude else magnitude

end TwinLisp.Decimal
