/-!
Digits of natural numbers, read and written in a base up to sixteen.

* `digitValue?`: the value of one digit, either case.
* `natOfDigits?`: a nonempty run of digits and nothing else.
* `intOfDigits?`: the same after an optional sign.
* `digitsOf`: the digits of a number, most significant first.
-/

namespace TwinLisp.Text

/-- The value of a digit below `base`. -/
def digitValue? (base : Nat) (c : Char) : Option Nat :=
  let n := c.toNat
  let v :=
    if 0x30 ≤ n && n ≤ 0x39 then n - 0x30
    else if 0x61 ≤ n && n ≤ 0x66 then n - 0x61 + 10
    else if 0x41 ≤ n && n ≤ 0x46 then n - 0x41 + 10
    else base
  if v < base then some v else none

/-- Reads digits onto the number read so far; any other character is refused. -/
def natOfDigitsFrom? (base : Nat) : Nat → List Char → Option Nat
  | acc, [] => some acc
  | acc, c :: rest =>
    match digitValue? base c with
    | some d => natOfDigitsFrom? base (acc * base + d) rest
    | none => none

/-- A number written as a nonempty run of digits. -/
def natOfDigits? (base : Nat) : List Char → Option Nat
  | [] => none
  | cs => natOfDigitsFrom? base 0 cs

/-- A number written as an optional sign and a nonempty run of digits. -/
def intOfDigits? (base : Nat) : List Char → Option Int
  | '-' :: cs => (natOfDigits? base cs).map fun n => -(n : Int)
  | '+' :: cs => (natOfDigits? base cs).map fun n => (n : Int)
  | cs => (natOfDigits? base cs).map fun n => (n : Int)

/-- A number with an optional plus sign, as counts are written. -/
def countOfDigits? (cs : List Char) : Option Nat :=
  match cs with
  | '+' :: rest => natOfDigits? 10 rest
  | _ => natOfDigits? 10 cs

/-- The digit of a value below sixteen, in lower case. -/
def digitChar (v : Nat) : Char :=
  if v < 10 then Char.ofNat (0x30 + v) else Char.ofNat (0x57 + v)

/-- Digits in front of `acc`; `fuel` bounds their number. -/
def digitsOnto (base : Nat) : Nat → Nat → List Char → List Char
  | 0, _, acc => acc
  | fuel + 1, n, acc =>
    if n < base then digitChar n :: acc
    else digitsOnto base fuel (n / base) (digitChar (n % base) :: acc)

/-- The digits of `n`, most significant first; zero has one digit. -/
def digitsOf (base n : Nat) : List Char :=
  digitsOnto base (n.log2 + 1) n []

/-- Lower-case hexadecimal text. -/
def hex (n : Nat) : String := String.ofList (digitsOf 16 n)

/-- Two hexadecimal digits for one byte. -/
def hexByte (b : UInt8) : String :=
  String.ofList [digitChar (b.toNat / 16), digitChar (b.toNat % 16)]

/-- Text padded on the left to `width` characters. -/
def padLeft (width : Nat) (pad : Char) (s : String) : String :=
  String.ofList (List.replicate (width - s.length) pad) ++ s

/-- Text padded with blanks on the right to `width` characters. -/
def padRight (width : Nat) (s : String) : String :=
  s ++ String.ofList (List.replicate (width - s.length) ' ')

end TwinLisp.Text
