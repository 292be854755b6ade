import TwinLisp.Number.Decimal.Arithmetic
/-!
Decimals in text. Digits may be grouped by underscores after the first one. A mantissa that
overflows before the point is refused; after the point the digits that do not fit are rounded away
by the first of them, half up.

* `ofPlain?`: digits with an optional point.
* `ofScientific?`: the same followed by an exponent, which moves the point.
* `ofText?`: the one or the other.
-/

namespace TwinLisp.Decimal

/-- Takes the first digit that does not fit into account. -/
def roundOff (negative : Bool) (mantissa scale : Nat) (next : Char) : Option Decimal :=
  let digit :=
    if next = '_' || next = '.' then some 0 else Text.digitValue? 10 next
  digit.bind fun d =>
    let m := if d ≥ 5 then mantissa + 1 else mantissa
    if m < capacity then some (make negative m scale)
    else if scale = 0 then none
    else some (make negative ((m + 4) / 10) (scale - 1))

/-- Reads digits onto a mantissa; `places` counts the digits after the point, if one was seen. -/
def readOnto (negative : Bool) : Nat → Option Nat → Bool → List Char → Option Decimal
  | mantissa, places, seen, [] =>
    if seen then some (make negative mantissa (places.getD 0)) else none
  | mantissa, places, seen, c :: rest =>
    if places = some maxScale then roundOff negative mantissa maxScale c
    else if c = '.' && places.isNone then readOnto negative mantissa (some 0) seen rest
    else if c = '_' && seen then readOnto negative mantissa places seen rest
    else
      match Text.digitValue? 10 c with
      | none => none
      | some d =>
        let m := mantissa * 10 + d
        if m < capacity then readOnto negative m (places.map (· + 1)) true rest
        else
          match places with
          | none => none
          | some s => roundOff negative mantissa s c

/-- Reads a decimal without exponent. -/
def ofPlain? (cs : List Char) : Option Decimal :=
  match cs with
  | '-' :: rest => readOnto true 0 none false rest
  | '+' :: rest => readOnto false 0 none false rest
  | _ => readOnto false 0 none false cs

/-- Multiplies by `10^n`, at most nineteen places at a time. -/
def raise : Nat → Nat → Decimal → Option Decimal
  | 0, _, d => some d
  | fuel + 1, n, d =>
    if n = 0 then some d
    else (mul? d ⟨false, tenTo (min n 19), 0⟩).bind (raise fuel (n - 19))

/-- Zeros after the point removed; zero has no sign. -/
def normalize (d : Decimal) : Decimal :=
  if d.mantissa = 0 then zero else stripZeros d.negative d.mantissa d.scale

/-- Moves the point to the right. -/
def shiftRight (d : Decimal) (n : Nat) : Option Decimal :=
  if n ≤ d.scale then some { d with scale := d.scale - n }
  else if n > maxScale + 1 then none
  else (raise 3 (n - d.scale) { d with scale := 0 }).map normalize

/-- Reads a decimal with an exponent. -/
def ofScientific? (cs : List Char) : Option Decimal :=
  let isMark := fun c : Char => c == 'e' || c == 'E'
  match cs.dropWhile (fun c => !isMark c) with
  | [] => none
  | _ :: exponent =>
    (ofPlain? (cs.takeWhile fun c => !isMark c)).bind fun base =>
      match exponent with
      | '-' :: digits =>
        (Text.countOfDigits? digits).bind fun n =>
          if base.scale + n ≤ maxScale then some { base with scale := base.scale + n } else none
      | digits =>
        (Text.countOfDigits? digits).bind fun n =>
          if n < twoTo 32 then shiftRight base n else none

/-- Reads a decimal, with an exponent or without. -/
def ofText? (cs : List Char) : Option Decimal :=
  match ofPlain? cs with
  | some d => some d
  | none => ofScientific? cs

end TwinLisp.Decimal
