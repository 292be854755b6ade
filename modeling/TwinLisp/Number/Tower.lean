import TwinLisp.Error.Running
import TwinLisp.Number.Decimal.Arithmetic
import TwinLisp.Number.Decimal.Binary
import TwinLisp.Number.Word
/-!
Arithmetic on the four kinds of numbers. A binary operation converts both operands to the kind that
`combine` chooses and computes there: words wrap, ratios are exact or overflow, doubles follow the
floating-point standard, decimals are exact or rounded at their capacity. The natives and the
arithmetic instructions both compute here, so the two engines agree on every result.

* `lowest`, `ratio`: a fraction in lowest terms, and its canonical value, a word if it is an integer.
* `add`, `sub`, `mul`, `div`, `quot`, `rem`, `modulo`, `negate`: the operations.
* `compare`: the order of two numbers; a NaN is not comparable.
-/

namespace TwinLisp.Number

/-- The kinds of numbers. -/
inductive Category where
  | int
  | ratio
  | double
  | decimal
  deriving DecidableEq, Repr

def category? : Value → Option Category
  | .int _ => some .int
  | .ratio _ => some .ratio
  | .double _ => some .double
  | .decimal _ => some .decimal
  | _ => none

/-- The kind in which two operands meet. -/
def combine : Category → Category → Category
  | .int, other => other
  | other, .int => other
  | .decimal, _ => .decimal
  | _, .decimal => .decimal
  | .double, _ => .double
  | _, .double => .double
  | .ratio, .ratio => .ratio

def isNumber (v : Value) : Bool := (category? v).isSome

def notANumber (op : String) (v : Value) : RuntimeFault :=
  .typeError ("Cannot apply " ++ op ++ " to " ++ v.typeName)

/-- The kind of both operands; the first that is no number is at fault. -/
def categories (op : String) (a b : Value) : Except RuntimeFault Category :=
  match category? a, category? b with
  | none, _ => .error (notANumber op a)
  | some _, none => .error (notANumber op b)
  | some x, some y => .ok (combine x y)

def ratioOverflow : RuntimeFault := .general "Ratio overflow"

def decimalOverflow : RuntimeFault := .general "Decimal overflow"

/-! ## Ratios -/

/-- The parts of `num / den` over their greatest common divisor, the denominator made positive. -/
def lowest (num den : Int) : Int × Int :=
  let g : Int := (Nat.gcd num.natAbs den.natAbs : Nat)
  let sign : Int := if den < 0 then -1 else 1
  (sign * num / g, sign * den / g)

theorem lowest_pos (num : Int) {den : Int} (h : den ≠ 0) : 0 < (lowest num den).2 := by
  have hg : 0 < Nat.gcd num.natAbs den.natAbs := Nat.gcd_pos_of_pos_right _ (Int.natAbs_pos.mpr h)
  have habs : (if den < 0 then -1 else 1) * den = (den.natAbs : Int) := by
    split <;> omega
  rw [lowest, habs, ← Int.natCast_ediv]
  exact Int.natCast_pos.mpr
    (Nat.div_pos (Nat.le_of_dvd (Int.natAbs_pos.mpr h) (Nat.gcd_dvd_right _ _)) hg)

theorem gcd_lowest (num : Int) {den : Int} (h : den ≠ 0) :
    Int.gcd (lowest num den).1 (lowest num den).2 = 1 := by
  have hg : 0 < Nat.gcd num.natAbs den.natAbs := Nat.gcd_pos_of_pos_right _ (Int.natAbs_pos.mpr h)
  have hsign : (if den < 0 then (-1 : Int) else 1).natAbs = 1 := by
    split <;> rfl
  have hnum := Int.ofNat_dvd_left.mpr (Nat.gcd_dvd_left num.natAbs den.natAbs)
  have hden := Int.ofNat_dvd_left.mpr (Nat.gcd_dvd_right num.natAbs den.natAbs)
  rw [lowest, Int.gcd_ediv (Int.dvd_mul_of_dvd_right hnum) (Int.dvd_mul_of_dvd_right hden),
    Int.gcd_mul_left, hsign, Nat.one_mul, Int.natAbs_natCast]
  exact Nat.div_self hg

/-- Lowest terms that are words are the parts of a ratio, unless the denominator is one. -/
theorem proper_of_lowest {num den : Int} {n d : Int64} (h : den ≠ 0)
    (hn : Word.ofInt? (lowest num den).1 = some n) (hd : Word.ofInt? (lowest num den).2 = some d)
    (hone : d ≠ 1) : 1 < d.toInt ∧ Int.gcd n.toInt d.toInt = 1 := by
  rw [Word.ofInt?_eq_some_iff] at hn hd
  have hpos : 0 < d.toInt := hd ▸ lowest_pos num h
  have hne : d.toInt ≠ 1 := fun e => hone (Int64.toInt_inj.mp e)
  exact ⟨by omega, by rw [hn, hd, gcd_lowest num h]⟩

/-- The canonical value of `num / den`: a word if the division is exact, otherwise a ratio. -/
def ratio (num den : Int) : Except RuntimeFault Value :=
  if h : den = 0 then .error .divisionByZero
  else
    match hn : Word.ofInt? (lowest num den).1, hd : Word.ofInt? (lowest num den).2 with
    | some n, some d =>
      if hone : d = 1 then .ok (.int n)
      else
        have hproper := proper_of_lowest h hn hd hone
        .ok (.ratio ⟨n, d, hproper.1, hproper.2⟩)
    | _, _ => .error ratioOverflow

/-- Numerator and denominator of an exact number. -/
def fraction : Value → Int × Int
  | .int n => (n.toInt, 1)
  | .ratio r => (r.num.toInt, r.den.toInt)
  | _ => (0, 1)

/-- The word of an integer operand. -/
def word : Value → Int64
  | .int n => n
  | _ => 0

/-! ## Conversions -/

def toDouble? : Value → Option Float
  | .int n => some (Double.ofInt n.toInt)
  | .ratio r => some (Double.ofInt r.num.toInt / Double.ofInt r.den.toInt)
  | .double d => some d
  | .decimal d => some d.toDouble
  | _ => none

def toDouble (v : Value) : Float := (toDouble? v).getD Double.nan

def toDecimal : Value → Except RuntimeFault Decimal
  | .int n => .ok (Decimal.ofInt n.toInt)
  | .ratio r =>
    match Decimal.div? (Decimal.ofInt r.num.toInt) (Decimal.ofInt r.den.toInt) with
    | some d => .ok d
    | none => .error decimalOverflow
  | .double d =>
    match Decimal.ofDouble? d with
    | some x => .ok x
    | none => .error decimalOverflow
  | .decimal d => .ok d
  | v => .error (notANumber "decimal arithmetic" v)

/-! ## Operations -/

/-- An operation on decimals as one on values. -/
def onDecimals (op : Decimal → Decimal → Option Decimal) (a b : Value) :
    Except RuntimeFault Value := do
  let x ← toDecimal a
  let y ← toDecimal b
  match op x y with
  | some d => .ok (.decimal d)
  | none => .error decimalOverflow

def add (a b : Value) : Except RuntimeFault Value := do
  match ← categories "+" a b with
  | .int => .ok (.int (word a + word b))
  | .ratio =>
    let (an, ad) := fraction a
    let (bn, bd) := fraction b
    ratio (an * bd + bn * ad) (ad * bd)
  | .double => .ok (.double (toDouble a + toDouble b))
  | .decimal => onDecimals Decimal.add? a b

def sub (a b : Value) : Except RuntimeFault Value := do
  match ← categories "-" a b with
  | .int => .ok (.int (word a - word b))
  | .ratio =>
    let (an, ad) := fraction a
    let (bn, bd) := fraction b
    ratio (an * bd - bn * ad) (ad * bd)
  | .double => .ok (.double (toDouble a - toDouble b))
  | .decimal => onDecimals Decimal.sub? a b

def mul (a b : Value) : Except RuntimeFault Value := do
  match ← categories "*" a b with
  | .int => .ok (.int (word a * word b))
  | .ratio =>
    let (an, ad) := fraction a
    let (bn, bd) := fraction b
    ratio (an * bn) (ad * bd)
  | .double => .ok (.double (toDouble a * toDouble b))
  | .decimal => onDecimals Decimal.mul? a b

/-- The quotient; two words have an exact one. -/
def div (a b : Value) : Except RuntimeFault Value := do
  match ← categories "/" a b with
  | .int | .ratio =>
    let (an, ad) := fraction a
    let (bn, bd) := fraction b
    if bn = 0 then .error .divisionByZero else ratio (an * bd) (ad * bn)
  | .double => .ok (.double (toDouble a / toDouble b))
  | .decimal =>
    let y ← toDecimal b
    if y.isZero then .error .divisionByZero
    else onDecimals Decimal.div? a (.decimal y)

def negate : Value → Except RuntimeFault Value
  | .int n => .ok (.int (-n))
  | .ratio r =>
    match h : Word.ofInt? (-r.num.toInt) with
    | some n =>
      have hgcd : Int.gcd n.toInt r.den.toInt = 1 := by
        rw [Word.ofInt?_eq_some_iff.mp h, Int.neg_gcd, r.coprime]
      .ok (.ratio ⟨n, r.den, r.proper, hgcd⟩)
    | none => .error ratioOverflow
  | .double d => .ok (.double (-d))
  | .decimal d => .ok (.decimal d.negate)
  | v => .error (notANumber "-" v)

def orderOf (a b : Int) : Ordering := if a < b then .lt else if a = b then .eq else .gt

/-- The order of two numbers; `none` if one is no number in the narrow sense. -/
def compare (a b : Value) : Except RuntimeFault (Option Ordering) := do
  match ← categories "comparison" a b with
  | .int | .ratio =>
    let (an, ad) := fraction a
    let (bn, bd) := fraction b
    .ok (some (orderOf (an * bd) (bn * ad)))
  | .double =>
    let x := toDouble a
    let y := toDouble b
    .ok (if x < y then some .lt else if x == y then some .eq else if y < x then some .gt else none)
  | .decimal =>
    let x ← toDecimal a
    let y ← toDecimal b
    .ok (some (x.compare y))

/-- A comparison as a value. -/
def ordered (accept : Ordering → Bool) (a b : Value) : Except RuntimeFault Value :=
  (compare a b).map fun o => .bool (o.any accept)

def less : Value → Value → Except RuntimeFault Value := ordered fun o => o == .lt

def greater : Value → Value → Except RuntimeFault Value := ordered fun o => o == .gt

def lessEq : Value → Value → Except RuntimeFault Value := ordered fun o => o != .gt

def greaterEq : Value → Value → Except RuntimeFault Value := ordered fun o => o != .lt

def isZero : Value → Except RuntimeFault Bool
  | .int n => .ok (n == 0)
  | .ratio _ => .ok false
  | .double d => .ok (d == 0.0)
  | .decimal d => .ok d.isZero
  | v => .error (notANumber "zero?" v)

def doubles (op : String) (a b : Value) : Except RuntimeFault (Float × Float) :=
  match toDouble? a, toDouble? b with
  | none, _ => .error (notANumber op a)
  | some _, none => .error (notANumber op b)
  | some x, some y => .ok (x, y)

/-- The quotient without its fraction. -/
def quot (a b : Value) : Except RuntimeFault Value :=
  match a, b with
  | .int x, .int y => if y = 0 then .error .divisionByZero else .ok (.int (x / y))
  | _, _ => (doubles "quot" a b).map fun (x, y) => .double (Double.truncate (x / y))

/-- The remainder with the sign of the dividend. -/
def rem (a b : Value) : Except RuntimeFault Value :=
  match a, b with
  | .int x, .int y => if y = 0 then .error .divisionByZero else .ok (.int (x % y))
  | _, _ => (doubles "rem" a b).map fun (x, y) => .double (Double.remainder x y)

/-- The remainder with the sign of the divisor. -/
def modulo (a b : Value) : Except RuntimeFault Value :=
  match a, b with
  | .int x, .int y =>
    if y = 0 then .error .divisionByZero
    else
      let r := x % y
      .ok (.int (if r ≠ 0 ∧ (decide (r < 0) != decide (y < 0)) then r + y else r))
  | _, _ => (doubles "mod" a b).map fun (x, y) =>
      let r := Double.remainder x y
      .double (if r != 0.0 && (decide (r < 0.0) != decide (y < 0.0)) then r + y else r)

end TwinLisp.Number
